import AdvancedCProjects.Bibak.Table
import Mathlib.Algebra.Group.Even

/-!
# The search for a modified file (BibakBOXClient.c:392-430)

`check_update` drops the files it cannot open from the table while it goes through it.
-/

namespace AdvancedCProjects.Bibak
open Base

structure Files where
  opens : Path → Bool
  mtime : Path → Option ℤ

namespace Files

/-- `check_update(fileInfos, count, sock)` from entry `i` on, with the rest of `count`
entries to go; the count of the table is the global one. -/
def checkUpdate (f : Files) (t : Snapshot) (i : ℕ) : ℕ → Option ℕ × Snapshot
  | 0 => (none, t)
  | left + 1 =>
    let info := t.files i
    if f.opens info.filepath then
      match f.mtime info.filepath with
      | none => f.checkUpdate t (i + 1) left
      | some currentTime =>
        let updated := Function.update t.files i { info with lastModifiedTime := currentTime }
        -- a time of 0 is one that was never filled in
        if info.lastModifiedTime = 0 then f.checkUpdate { t with files := updated } (i + 1) left
        else if info.lastModifiedTime < currentTime then (some i, { t with files := updated })
        else f.checkUpdate t (i + 1) left
    else
      let r := removeFileFromPath (fun b => (b i).filepath) t.files t.count 0 t.count
      f.checkUpdate ⟨r.1, r.2⟩ (i + 1) left

/-- The file can be opened and is newer than the table says. -/
def Modified (f : Files) (e : FileModificationInfo) : Prop :=
  f.opens e.filepath = true ∧ ∃ time, f.mtime e.filepath = some time ∧ e.lastModifiedTime < time

/-- How many files in a row, at the end of these, cannot be opened. -/
def missingRun (f : Files) (es : List FileModificationInfo) : ℕ :=
  (es.reverse.takeWhile fun e => !f.opens e.filepath).length

/-- The result names a modified file, whose time is now the current one, if there is one. -/
structure MissesNothing (f : Files) (es : List FileModificationInfo) (r : Option ℕ × Snapshot) :
    Prop where
  none : r.1 = none → ∀ e ∈ es, ¬ f.Modified e
  some : ∀ i, r.1 = some i → i < r.2.count ∧ ∃ e ∈ es, f.Modified e ∧
    (r.2.files i).filepath = e.filepath ∧
    f.mtime e.filepath = some (r.2.files i).lastModifiedTime

/-- Entry `k` is modified, its time was filled in, and the run of missing files
in front of it is even. -/
structure Caught (f : Files) (es : List FileModificationInfo) (k : ℕ)
    (e : FileModificationInfo) : Prop where
  entry : es[k]? = some e
  modified : f.Modified e
  time : e.lastModifiedTime ≠ 0
  even : Even (f.missingRun (es.take k))

section Scan
variable {f : Files} {es : List FileModificationInfo} {t : Snapshot} {i k left : ℕ}
  {e : FileModificationInfo}

theorem missingRun_opens (h : f.opens e.filepath = true) : f.missingRun (es ++ [e]) = 0 := by
  simp [missingRun, h]

theorem missingRun_missing (h : ¬ f.opens e.filepath = true) :
    f.missingRun (es ++ [e]) = f.missingRun es + 1 := by
  simp [missingRun, h]

theorem checkUpdate_missing (h : ¬ f.opens (t.files i).filepath = true) :
    f.checkUpdate t i (left + 1) =
      let r := removeFileFromPath (fun b => (b i).filepath) t.files t.count 0 t.count
      f.checkUpdate ⟨r.1, r.2⟩ (i + 1) left := by
  simp only [checkUpdate, if_neg h]

variable (left) in
theorem checkUpdate_modified (h : f.Modified (t.files i))
    (htime : (t.files i).lastModifiedTime ≠ 0) : ∃ time,
    f.mtime (t.files i).filepath = some time ∧ f.checkUpdate t i (left + 1) = (some i,
      { t with
        files := Function.update t.files i { t.files i with lastModifiedTime := time } }) := by
  obtain ⟨hopens, time, hmtime, hnewer⟩ := h
  apply Exists.intro time
  apply And.intro hmtime
  simp only [checkUpdate, if_pos hopens, hmtime, if_neg htime, if_pos hnewer]

variable (left) in
theorem checkUpdate_passes (hopens : f.opens (t.files i).filepath = true)
    (h : ¬ (f.Modified (t.files i) ∧ (t.files i).lastModifiedTime ≠ 0)) : ∃ time,
    f.checkUpdate t i (left + 1) = f.checkUpdate { t with
      files := Function.update t.files i { t.files i with lastModifiedTime := time } }
      (i + 1) left := by
  cases hmtime : f.mtime (t.files i).filepath with
  | none =>
    apply Exists.intro (t.files i).lastModifiedTime
    simp only [checkUpdate, if_pos hopens, hmtime, Function.update_eq_self]
  | some time =>
    by_cases hzero : (t.files i).lastModifiedTime = 0
    · apply Exists.intro time
      simp only [checkUpdate, if_pos hopens, hmtime, if_pos hzero]
    · have hold : ¬ (t.files i).lastModifiedTime < time := by
        intro hnewer
        exact h ⟨⟨hopens, time, hmtime, hnewer⟩, hzero⟩
      apply Exists.intro (t.files i).lastModifiedTime
      simp only [checkUpdate, if_pos hopens, hmtime, if_neg hzero, if_neg hold,
        Function.update_eq_self]

theorem removeFileFromPath_count_le (filepath : Block → Path) (files : Block)
    (globCount i fuel : ℕ) :
    (removeFileFromPath filepath files globCount i fuel).2 ≤ globCount := by
  induction fuel generalizing i with
  | zero => exact le_rfl
  | succ fuel ih =>
    rw [removeFileFromPath]
    split
    · exact Nat.sub_le _ _
    · exact ih (i + 1)

theorem removeFileFromPath_entry (filepath : Block → Path) (files : Block)
    (globCount i fuel j : ℕ) :
    (removeFileFromPath filepath files globCount i fuel).1 j = files j ∨
      j + 1 < globCount ∧
        (removeFileFromPath filepath files globCount i fuel).1 j = files (j + 1) := by
  induction fuel generalizing i with
  | zero => exact .inl rfl
  | succ fuel ih =>
    rw [removeFileFromPath]
    split
    · dsimp only
      rw [shiftEntries_apply]
      split
      · right
        apply And.intro _ rfl
        omega
      · exact .inl rfl
    · exact ih (i + 1)

theorem checkUpdate_bounds (f : Files) (t : Snapshot) (i left : ℕ) :
    (f.checkUpdate t i left).2.count ≤ t.count ∧
      ∀ j, (f.checkUpdate t i left).1 = some j → i ≤ j := by
  induction left generalizing t i with
  | zero => simp [checkUpdate]
  | succ left ih =>
    have weaken : ∀ u : Snapshot, u.count ≤ t.count →
        (f.checkUpdate u (i + 1) left).2.count ≤ t.count ∧
          ∀ j, (f.checkUpdate u (i + 1) left).1 = some j → i ≤ j := by
      intro u hu
      obtain ⟨hcount, hindex⟩ := ih u (i + 1)
      apply And.intro (hcount.trans hu)
      intro j hj
      have hij := hindex j hj
      omega
    by_cases hopens : f.opens (t.files i).filepath = true
    · by_cases hmod : f.Modified (t.files i) ∧ (t.files i).lastModifiedTime ≠ 0
      · obtain ⟨time, _, heq⟩ := checkUpdate_modified left hmod.1 hmod.2
        rw [heq]
        apply And.intro le_rfl
        intro j hj
        exact (Option.some.inj hj).le
      · obtain ⟨time, heq⟩ := checkUpdate_passes left hopens hmod
        rw [heq]
        exact weaken _ le_rfl
    · rw [checkUpdate_missing hopens]
      exact weaken _ (removeFileFromPath_count_le _ _ _ _ _)

/-- The table has entry `k` of the original at `i`, and what comes behind it. -/
structure Scanning (f : Files) (es : List FileModificationInfo) (t : Snapshot) (i k : ℕ) :
    Prop where
  distinct : ∀ a < t.count, ∀ b < t.count, (t.files a).filepath = (t.files b).filepath → a = b
  count : t.count - i = es.length - k
  entry : ∀ n, i + n < t.count → es[k + n]? = some (t.files (i + n))
  even : k < es.length → Even (f.missingRun (es.take k))
  before : ∀ j < k, ∀ e, ¬ f.Caught es j e

/-- How the search ends: at a file that is caught, or behind the table. -/
def Ends (f : Files) (es : List FileModificationInfo) (r : Option ℕ × Snapshot) : Prop :=
  (∃ k e, f.Caught es k e ∧ ∃ i, r.1 = some i ∧ i < r.2.count ∧
    (r.2.files i).filepath = e.filepath ∧
    f.mtime e.filepath = some (r.2.files i).lastModifiedTime) ∨
  (∀ k e, ¬ f.Caught es k e) ∧ ∀ i, r.1 = some i → r.2.count ≤ i

theorem Scanning.here (h : f.Scanning es t i k) (hi : i < t.count) :
    es[k]? = some (t.files i) := by
  have hentry := h.entry 0 hi
  simpa using hentry

theorem Scanning.take_succ (h : f.Scanning es t i k) (hi : i < t.count) :
    es.take (k + 1) = es.take k ++ [t.files i] := by
  rw [List.take_add_one, h.here hi]
  rfl

theorem Scanning.before_succ (h : f.Scanning es t i k) (hnot : ∀ e, ¬ f.Caught es k e) :
    ∀ j < k + 1, ∀ e, ¬ f.Caught es j e := by
  intro j hj e
  rcases Nat.lt_succ_iff_lt_or_eq.mp hj with hlt | rfl
  · exact h.before j hlt e
  · exact hnot e

theorem Scanning.passes (h : f.Scanning es t i k) (hi : i < t.count)
    (hopens : f.opens (t.files i).filepath = true)
    (hnot : ¬ (f.Modified (t.files i) ∧ (t.files i).lastModifiedTime ≠ 0)) (time : ℤ) :
    f.Scanning es { t with
      files := Function.update t.files i { t.files i with lastModifiedTime := time } }
      (i + 1) (k + 1) where
  distinct := by
    have hpath : ∀ a, (Function.update t.files i
        { t.files i with lastModifiedTime := time } a).filepath = (t.files a).filepath := by
      intro a
      by_cases ha : a = i
      · rw [ha, Function.update_self]
      · rw [Function.update_of_ne ha]
    simp only [hpath]
    exact h.distinct
  count := by
    have hcount := h.count
    dsimp only
    omega
  entry n hn := by
    dsimp only at hn ⊢
    have hentry := h.entry (1 + n) (by omega)
    rw [Function.update_of_ne (by omega)]
    rwa [← Nat.add_assoc, ← Nat.add_assoc] at hentry
  even := by
    intro _
    rw [h.take_succ hi, missingRun_opens hopens]
    exact Even.zero
  before := by
    apply h.before_succ
    intro e hcaught
    have heq := Option.some.inj ((h.here hi).symm.trans hcaught.entry)
    apply hnot
    rw [heq]
    exact ⟨hcaught.modified, hcaught.time⟩

theorem Scanning.remove_eq (h : f.Scanning es t i k) (hi : i < t.count) :
    removeFileFromPath (fun b => (b i).filepath) t.files t.count 0 t.count =
      ((List.range' i (t.count - 1 - i)).foldl shiftEntry t.files, t.count - 1) := by
  apply removeFileFromPath_found (fun b => (b i).filepath) _ _ _ _ i (Nat.zero_le i) (by omega)
  · intro j _ hj heq
    exact absurd (h.distinct j (by omega) i hi heq) hj.ne
  · rfl

/-- The entry behind a missing one takes its place and is not looked at. -/
theorem Scanning.removes (h : f.Scanning es t i k) (hi : i < t.count)
    (hmissing : ¬ f.opens (t.files i).filepath = true) :
    let r := removeFileFromPath (fun b => (b i).filepath) t.files t.count 0 t.count
    f.Scanning es ⟨r.1, r.2⟩ (i + 1) (k + 2) := by
  rw [h.remove_eq hi]
  have hodd : f.missingRun (es.take (k + 1)) = f.missingRun (es.take k) + 1 := by
    rw [h.take_succ hi, missingRun_missing hmissing]
  have hhere : ∀ e, ¬ f.Caught es k e := by
    intro e hcaught
    have heq := Option.some.inj ((h.here hi).symm.trans hcaught.entry)
    apply hmissing
    rw [heq]
    exact hcaught.modified.1
  have hnext : ∀ e, ¬ f.Caught es (k + 1) e := by
    intro e hcaught
    have heven := hcaught.even
    rw [hodd, Nat.even_add_one] at heven
    have hk : k < es.length := by
      have hcount := h.count
      omega
    exact heven (h.even hk)
  apply Scanning.mk
  · dsimp only
    intro a ha b hb hab
    rw [shiftEntries_apply, shiftEntries_apply] at hab
    split at hab <;> split at hab
    · have heq := h.distinct (a + 1) (by omega) (b + 1) (by omega) hab
      omega
    · have heq := h.distinct (a + 1) (by omega) b (by omega) hab
      omega
    · have heq := h.distinct a (by omega) (b + 1) (by omega) hab
      omega
    · exact h.distinct a (by omega) b (by omega) hab
  · have hcount := h.count
    dsimp only
    omega
  · dsimp only
    intro n hn
    have hentry := h.entry (2 + n) (by omega)
    rw [shiftEntries_apply, if_pos (by omega)]
    rwa [← Nat.add_assoc, show i + (2 + n) = i + 1 + n + 1 by omega] at hentry
  · intro hlen
    have hget : es[k + 1]? = some es[k + 1] := List.getElem?_eq_getElem (by omega)
    rw [List.take_add_one, hget, Option.toList_some]
    by_cases hopens : f.opens (es[k + 1]).filepath = true
    · rw [missingRun_opens hopens]
      exact Even.zero
    · rw [missingRun_missing hopens, hodd, Nat.even_add_one, Nat.even_add_one, not_not]
      exact h.even (by omega)
  · intro j hj e
    rcases Nat.lt_succ_iff_lt_or_eq.mp hj with hlt | rfl
    · exact h.before_succ hhere j hlt e
    · exact hnext e

theorem Scanning.over (h : f.Scanning es t i k) (hi : t.count ≤ i) (j : ℕ)
    (e : FileModificationInfo) : ¬ f.Caught es j e := by
  intro hcaught
  obtain ⟨hlen, _⟩ := List.getElem?_eq_some_iff.mp hcaught.entry
  have hcount := h.count
  have hjk : j < k := by omega
  exact h.before j hjk e hcaught

theorem checkUpdate_ends (h : f.Scanning es t i k) (hleft : t.count ≤ i + left) :
    f.Ends es (f.checkUpdate t i left) := by
  induction left generalizing t i k with
  | zero =>
    right
    apply And.intro (h.over hleft)
    intro j hj
    simp [checkUpdate] at hj
  | succ left ih =>
    by_cases hi : i < t.count
    · by_cases hopens : f.opens (t.files i).filepath = true
      · by_cases hmod : f.Modified (t.files i) ∧ (t.files i).lastModifiedTime ≠ 0
        · obtain ⟨time, hmtime, heq⟩ := checkUpdate_modified left hmod.1 hmod.2
          have hk : k < es.length := by
            have hcount := h.count
            omega
          left
          apply Exists.intro k
          apply Exists.intro (t.files i)
          apply And.intro ⟨h.here hi, hmod.1, hmod.2, h.even hk⟩
          apply Exists.intro i
          rw [heq]
          simp only [Function.update_self]
          exact ⟨trivial, hi, trivial, hmtime⟩
        · obtain ⟨time, heq⟩ := checkUpdate_passes left hopens hmod
          rw [heq]
          apply ih (h.passes hi hopens hmod time)
          dsimp only
          omega
      · rw [checkUpdate_missing hopens]
        apply ih (h.removes hi hopens)
        have hcount := removeFileFromPath_count_le (fun b => (b i).filepath) t.files t.count 0
          t.count
        dsimp only
        omega
    · -- only copies of the last entry are left, behind the table
      obtain ⟨hcount, hindex⟩ := checkUpdate_bounds f t i (left + 1)
      right
      apply And.intro (h.over (Nat.le_of_not_lt hi))
      intro j hj
      have hij := hindex j hj
      omega

theorem checkUpdate_none (h : ∀ j, i ≤ j → j < i + left → ¬ f.Modified (t.files j))
    (hcount : t.count ≤ i + left) : (f.checkUpdate t i left).1 = none := by
  induction left generalizing t i with
  | zero => rfl
  | succ left ih =>
    by_cases hopens : f.opens (t.files i).filepath = true
    · have hmod : ¬ (f.Modified (t.files i) ∧ (t.files i).lastModifiedTime ≠ 0) := by
        intro hmod
        exact h i le_rfl (by omega) hmod.1
      obtain ⟨time, heq⟩ := checkUpdate_passes left hopens hmod
      rw [heq]
      apply ih
      · intro j hij hj
        dsimp only
        rw [Function.update_of_ne (by omega)]
        exact h j (by omega) (by omega)
      · dsimp only
        omega
    · have hremoved := removeFileFromPath_count_le (fun b => (b i).filepath) t.files t.count 0
        t.count
      rw [checkUpdate_missing hopens]
      apply ih
      · intro j hij hj
        dsimp only
        rcases removeFileFromPath_entry (fun b => (b i).filepath) t.files t.count 0 t.count j with
          heq | ⟨hlt, heq⟩
        · rw [heq]
          exact h j (by omega) (by omega)
        · rw [heq]
          exact h (j + 1) (by omega) (by omega)
      · dsimp only
        omega

end Scan

theorem Scanning.start (f : Files) (t : Snapshot)
    (hdistinct : (t.entries.map FileModificationInfo.filepath).Nodup) :
    f.Scanning t.entries t 0 0 where
  distinct a ha b hb hab := by
    have hget : ∀ n < t.count, (t.entries.map FileModificationInfo.filepath)[n]? =
        some (t.files n).filepath := by
      intro n hn
      simp [Snapshot.entries, Block.entries, hn]
    have hlen : a < (t.entries.map FileModificationInfo.filepath).length := by
      simpa [Snapshot.entries] using ha
    apply (List.getElem?_inj hlen hdistinct).mp
    rw [hget a ha, hget b hb, hab]
  count := by simp [Snapshot.entries]
  entry n hn := by
    have hn : n < t.count := by omega
    simp [Snapshot.entries, Block.entries, hn]
  even _ := Even.zero
  before j hj := absurd hj (Nat.not_lt_zero j)

theorem missesNothing_iff (f : Files) (t : Snapshot) (hdistinct : (t.entries.map
    FileModificationInfo.filepath).Nodup) :
    f.MissesNothing t.entries (f.checkUpdate t 0 t.count) ↔
      (∀ e ∈ t.entries, ¬ f.Modified e) ∨ ∃ k e, f.Caught t.entries k e := by
  have hends := checkUpdate_ends (Scanning.start f t hdistinct) (Nat.le_add_left _ _)
  constructor
  · intro h
    rcases hends with ⟨k, e, hcaught, _⟩ | ⟨_, hbehind⟩
    · exact .inr ⟨k, e, hcaught⟩
    · left
      apply h.none
      cases hr : (f.checkUpdate t 0 t.count).1 with
      | none => rfl
      | some i =>
        obtain ⟨hi, _⟩ := h.some i hr
        have hle := hbehind i hr
        omega
  · rintro (hnone | ⟨k, e, hcaught⟩)
    · have hr : (f.checkUpdate t 0 t.count).1 = none := by
        apply checkUpdate_none
        · intro j _ hj
          apply hnone
          exact Block.mem_entries.mpr ⟨j, by omega, rfl⟩
        · omega
      apply MissesNothing.mk
      · intro _
        exact hnone
      · intro i hi
        rw [hr] at hi
        contradiction
    · rcases hends with ⟨k, e, hcaught, i, hi, hlt, hpath, htime⟩ | ⟨hno, _⟩
      · apply MissesNothing.mk
        · intro hr
          rw [hr] at hi
          contradiction
        · intro j hj
          have hij : i = j := Option.some.inj (hi.symm.trans hj)
          subst hij
          apply And.intro hlt
          exact ⟨e, List.mem_of_getElem? hcaught.entry, hcaught.modified, hpath, htime⟩
      · exact absurd hcaught (hno k e)

/-- The first two of three files are gone, and the third, read at 1, was written at 2. -/
theorem missesNothing_twoGone : Files.MissesNothing ⟨fun p => p = [2], fun _ => some 2⟩
    (Snapshot.entries ⟨fun i => ⟨[Fin.ofNat 256 i], 1⟩, 3⟩)
    (checkUpdate ⟨fun p => p = [2], fun _ => some 2⟩ ⟨fun i => ⟨[Fin.ofNat 256 i], 1⟩, 3⟩ 0 3) :=
  (missesNothing_iff ⟨fun p => p = [2], fun _ => some 2⟩ ⟨fun i => ⟨[Fin.ofNat 256 i], 1⟩, 3⟩
    (by decide)).mpr
    (.inr ⟨2, ⟨[2], 1⟩, rfl, ⟨by decide, 2, rfl, by decide⟩, by decide, by decide⟩)

/-- The first of three files is gone, so the second, which was written, is passed over. -/
theorem missing_hides_modified : ∃ f t,
    (t.entries.map FileModificationInfo.filepath).Nodup ∧
      ¬ Files.MissesNothing f t.entries (f.checkUpdate t 0 t.count) := by
  let f : Files := ⟨fun p => p ≠ [1], fun p => if p = [2] then some 2 else some 1⟩
  let t : Snapshot := ⟨fun i => ⟨[if i = 0 then 1 else if i = 1 then 2 else 3], 1⟩, 3⟩
  apply Exists.intro f
  apply Exists.intro t
  constructor
  · decide
  · intro h
    have hnone : (f.checkUpdate t 0 t.count).1 = none := by decide
    have hmem : (⟨[2], 1⟩ : FileModificationInfo) ∈ t.entries := by decide
    exact h.none hnone _ hmem ⟨by decide, 2, by decide, by decide⟩

end Files
end AdvancedCProjects.Bibak
