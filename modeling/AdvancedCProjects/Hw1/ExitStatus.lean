import AdvancedCProjects.Hw1.AppendMeMore

/-!
# The exit status of appendMeMore (appendMeMore.c:7-72)

`write_bytes_to_file` returns 1 when a call fails; `main` looks for -1.
-/

namespace AdvancedCProjects.Hw1
open Base

/-- One run that nobody disturbs; the action is whether the call succeeds. -/
def alone (run : Run) (first : Bytes) : Machine (Writer × Bytes) Bool where
  start s := s = (run.start, first)
  next s ok := s.1.call ok s.2

/-- What `main` returns, from what `write_bytes_to_file` has returned. -/
def mainStatus (status : ℤ) : ℤ := if status = -1 then 1 else 0

/-- More than the number of calls to come. -/
def Writer.left (w : Writer) : ℕ :=
  match w.pc with
  | .opens => 2 * w.run.numBytes.toNat + 4
  | .seeks i => 2 * (w.run.numBytes.toNat - i) + 3
  | .writes i => 2 * (w.run.numBytes.toNat - i) + 2
  | .closes => 1
  | .returned _ => 0

/-- No call has failed, so every write was at the end. -/
structure Intact (first : Bytes) (s : Writer × Bytes) : Prop where
  grown : s.1.Grown first.length s.2.length
  file : s.2 = first ++ List.replicate s.1.written byte
  position : ∀ i, s.1.pc = .writes i → s.1.position s.2 = s.2.length
  status : ∀ status, s.1.pc = .returned status → status = 0

section Calls
variable {w w' : Writer} {file file' first : Bytes} {run : Run} {i : ℕ} {ok : Bool}
  {s t : Writer × Bytes} {results : List Bool}

theorem Run.round_left (run : Run) (i offset : ℕ) :
    Writer.left ⟨run, run.round i, offset⟩ < 2 * (run.numBytes.toNat - i) + 4 := by
  unfold Run.round
  by_cases hi : (i : ℤ) < run.numBytes
  · rw [if_pos hi]
    cases run.thirdArg
    · simp only [Writer.left, Bool.false_eq_true, if_false]
      omega
    · simp only [Writer.left, if_true]
      omega
  · rw [if_neg hi]
    simp only [Writer.left]
    omega

theorem Run.round_closes_left (h : ¬ i < run.numBytes) (offset : ℕ) :
    Writer.left ⟨run, run.round i, offset⟩ = 1 := by
  rw [Run.round, if_neg h, Writer.left]

theorem Writer.left_call (hcall : w.call ok file = some (w', file')) : w'.left < w.left := by
  obtain ⟨run, pc, offset⟩ := w
  cases ok with
  | false =>
    cases pc <;> cases hcall <;> simp [Writer.left]
  | true =>
    cases pc with
    | returned status => contradiction
    | opens =>
      cases hcall
      exact Run.round_left run 0 0
    | seeks i =>
      cases hcall
      exact Nat.lt_succ_self _
    | writes i =>
      cases hcall
      have hround := Run.round_left run (i + 1)
        (Writer.position ⟨run, .writes i, offset⟩ file + 1)
      by_cases hi : ((i + 1 : ℕ) : ℤ) < run.numBytes
      · simp only [Writer.left] at hround ⊢
        omega
      · rw [Run.round_closes_left hi]
        simp only [Writer.left]
        omega
    | closes =>
      cases hcall
      exact Nat.one_pos

theorem Writer.call_of_returned (h : ∀ status, w.pc ≠ .returned status) (ok : Bool)
    (file : Bytes) : ∃ w' file', w.call ok file = some (w', file') := by
  obtain ⟨run, pc, offset⟩ := w
  cases pc with
  | returned status => exact absurd rfl (h status)
  | _ => cases ok <;> exact ⟨_, _, rfl⟩

theorem Writer.call_failed (hcall : w.call false file = some (w', file')) :
    w'.pc = .returned 1 := by
  obtain ⟨run, pc, offset⟩ := w
  cases pc <;> cases hcall <;> rfl

/-- Nobody has written since the last call of this run. -/
theorem Writer.call_position (hcall : w.call true file = some (w', file'))
    (hpc : w'.pc = .writes i) : w'.position file' = file'.length := by
  have none_sought {run : Run} {k : ℕ} (offset : ℕ) (hround : run.round k = .writes i) :
      Writer.position ⟨run, run.round k, offset⟩ file' = file'.length := by
    rw [Writer.position, Run.round_writes hround, if_neg Bool.false_ne_true]
  obtain ⟨run, pc, offset⟩ := w
  cases pc with
  | returned status => contradiction
  | opens =>
    cases hcall
    exact none_sought 0 hpc
  | seeks k =>
    cases hcall
    exact ite_self _
  | writes k =>
    cases hcall
    exact none_sought _ hpc
  | closes =>
    cases hcall
    cases hpc

theorem Writer.call_status (hcall : w.call true file = some (w', file')) {status : ℤ}
    (hpc : w'.pc = .returned status) : status = 0 := by
  have continues {run : Run} {k : ℕ} (hround : run.round k = .returned status) : status = 0 := by
    unfold Run.round at hround
    split_ifs at hround
  obtain ⟨run, pc, offset⟩ := w
  cases pc with
  | returned status => contradiction
  | opens =>
    cases hcall
    exact continues hpc
  | seeks k =>
    cases hcall
    cases hpc
  | writes k =>
    cases hcall
    exact continues hpc
  | closes =>
    cases hcall
    cases hpc
    rfl

theorem alone_keeps (hrun : (alone run first).run s results = some t) : t.1.run = s.1.run := by
  induction results generalizing s with
  | nil => exact congrArg (·.1.run) (Option.some.inj hrun).symm
  | cons ok results ih =>
    obtain ⟨u, hnext, hrest⟩ := Option.bind_eq_some_iff.mp hrun
    exact (ih hrest).trans (Writer.call_run hnext)

theorem intact_start : Intact first (run.start, first) where
  grown := run.start_grown first.length
  file := (List.append_nil first).symm
  position i hpc := by cases hpc
  status status hpc := by cases hpc

theorem intact_next (h : Intact first s) (hnext : (alone run first).next s true = some t) :
    Intact first t := by
  obtain ⟨w, file⟩ := s
  obtain ⟨w', file'⟩ := t
  obtain ⟨hgrown, hcase⟩ := Writer.call_cases h.grown hnext
  refine ⟨hgrown, ?_, fun i hpc => Writer.call_position hnext hpc,
    fun status hpc => Writer.call_status hnext hpc⟩
  have hfile : file = _ := h.file
  dsimp only at hfile ⊢
  rcases hcase with ⟨hwritten, rfl, _⟩ | ⟨i, hpc, hwritten, rfl⟩
  · rw [hwritten]
    exact hfile
  · have hposition : w.position file = file.length := h.position i hpc
    rw [hposition, writeAt_end, hwritten, List.replicate_succ', ← List.append_assoc, ← hfile]

theorem alone_run (h : Intact first s) (hrun : (alone run first).run s results = some t) :
    ((∀ ok ∈ results, ok = true) → Intact first t) ∧
      (¬ (∀ ok ∈ results, ok = true) → t.1.pc = .returned 1) := by
  induction results generalizing s with
  | nil =>
    cases hrun
    exact ⟨fun _ => h, fun hnot => absurd (fun ok hok => absurd hok List.not_mem_nil) hnot⟩
  | cons ok results ih =>
    obtain ⟨u, hnext, hrest⟩ := Option.bind_eq_some_iff.mp hrun
    cases ok with
    | true =>
      have hu := ih (intact_next h hnext) hrest
      simpa only [List.forall_mem_cons, true_and] using hu
    | false =>
      have hfailed : u.1.pc = .returned 1 := Writer.call_failed hnext
      -- nothing is called after a failure
      have hlast : u = t := by
        cases results with
        | nil => exact Option.some.inj hrest
        | cons ok results =>
          obtain ⟨v, hv, -⟩ := Option.bind_eq_some_iff.mp hrest
          have hnone : u.1.call ok u.2 = none := by rw [Writer.call, hfailed]
          exact absurd (hv.symm.trans hnone) (Option.some_ne_none v)
      refine ⟨fun hall => absurd (hall false List.mem_cons_self) Bool.false_ne_true, fun _ => ?_⟩
      exact hlast ▸ hfailed

/-- Whatever the calls return, `write_bytes_to_file` returns. -/
theorem alone_returns (run : Run) (first : Bytes) (results : ℕ → Bool) (s : Writer × Bytes) :
    ∃ k t status, (alone run first).run s ((List.range k).map results) = some t ∧
      t.1.pc = .returned status := by
  induction hleft : s.1.left using Nat.strong_induction_on generalizing s results with
  | _ left ih =>
    by_cases hreturned : ∃ status, s.1.pc = .returned status
    · obtain ⟨status, hpc⟩ := hreturned
      exact ⟨0, s, status, rfl, hpc⟩
    · obtain ⟨w, file, hcall⟩ := Writer.call_of_returned (not_exists.mp hreturned)
        (results 0) s.2
      have hless := Writer.left_call hcall
      obtain ⟨k, t, status, hrun, hpc⟩ := ih w.left (hleft ▸ hless) (fun i => results (i + 1))
        (w, file) rfl
      refine ⟨k + 1, t, status, ?_, hpc⟩
      rw [List.range_succ_eq_map, List.map_cons, List.map_map]
      exact Option.bind_eq_some_iff.mpr ⟨(w, file), hcall, hrun⟩

end Calls

/-- `main` returns 0 after every run. -/
theorem mainStatus_iff (run : Run) (first : Bytes) (results : ℕ → Bool) :
    ∃ k t status,
      (alone run first).run (run.start, first) ((List.range k).map results) = some t ∧
      t.1.pc = .returned status ∧
      (((mainStatus status = 0 ↔ ∀ i < k, results i = true) ∧
        ((∀ i < k, results i = true) → t.2 = first ++ List.replicate run.numBytes.toNat byte)) ↔
      ∀ i < k, results i = true) := by
  obtain ⟨k, t, status, hrun, hpc⟩ := alone_returns run first results (run.start, first)
  obtain ⟨hintact, hfailed⟩ := alone_run intact_start hrun
  have hcalls : (∀ ok ∈ (List.range k).map results, ok = true) ↔ ∀ i < k, results i = true := by
    simp only [List.forall_mem_map, List.mem_range]
  rw [hcalls] at hintact hfailed
  have hzero : mainStatus status = 0 := by
    by_cases hall : ∀ i < k, results i = true
    · rw [(hintact hall).status status hpc]
      rfl
    · have hone : status = 1 := WriterPc.returned.inj (hpc.symm.trans (hfailed hall))
      rw [hone]
      rfl
  have hfile (hall : ∀ i < k, results i = true) :
      t.2 = first ++ List.replicate run.numBytes.toNat byte := by
    have hrunOf : t.1.run = run := alone_keeps hrun
    have hwritten : t.1.written = run.numBytes.toNat := by rw [Writer.written, hpc, hrunOf]
    exact hwritten ▸ (hintact hall).file
  refine ⟨k, t, status, hrun, hpc, fun h => h.1.mp hzero, fun hall => ?_⟩
  exact ⟨iff_of_true hzero hall, hfile⟩

/-- `open` fails, and `main` returns 0. -/
theorem open_failed : ¬ ∀ run first results t status,
    (alone run first).run (run.start, first) results = some t → t.1.pc = .returned status →
    (mainStatus status = 0 ↔ ∀ ok ∈ results, ok = true) := by
  intro h
  have hsucceeded := (h ⟨3, false⟩ [] [false] (⟨⟨3, false⟩, .returned 1, 0⟩, []) 1 rfl rfl).mp rfl
  exact absurd (hsucceeded false List.mem_cons_self) Bool.false_ne_true

end AdvancedCProjects.Hw1
