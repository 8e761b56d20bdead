import AdvancedCProjects.Base.File
import AdvancedCProjects.Base.Text
import AdvancedCProjects.Copier.Program

/-!
# Copying one file (program.c:400-436)

`copy_fd` on the contents of the two files. The results of its calls are a list:
those of `read` and of `write` in turn, up to the call after which the loop ends.
-/

namespace AdvancedCProjects.Copier
open Base

/-- What `read` or `write` returns; `none` is -1. -/
abbrev CallResult := Option ℕ

/-- The offsets of the two descriptors, the destination, and what has been said. -/
structure Copy where
  srcOffset : ℕ
  dest : Bytes
  destOffset : ℕ
  bytesCopied : ℤ
  stderr : List Bytes
  deriving DecidableEq

namespace Copy

def failed (c : Copy) (what filename : Bytes) : Copy :=
  { c with stderr := c.stderr ++ [what ++ filename ++ [newline]] }

/-- A `read` of `bytesRead` bytes and a `write` that takes `bytesWritten` of them. -/
def round (c : Copy) (source : Bytes) (bytesRead bytesWritten : ℕ) : Copy :=
  let buf := (source.drop c.srcOffset).take bytesRead
  { c with
    srcOffset := c.srcOffset + bytesRead
    dest := writeAt c.dest c.destOffset (buf.take bytesWritten)
    destOffset := c.destOffset + bytesWritten
    bytesCopied := wrapInt 4 (c.bytesCopied + bytesWritten) }

/-- The descriptors as `traverse_directory` has opened them, with `O_TRUNC`. -/
def opened (bytesCopied : ℤ) : Copy := ⟨0, [], 0, bytesCopied, []⟩

end Copy

/-- `copy_fd`; `none` if POSIX does not allow the results, or the loop goes on. -/
def copyFd (source filename : Bytes) : List CallResult → Copy → Option Copy
  | [none], c => some (c.failed (utf8 "Failed to read from file: ") filename)
  | [some 0], c => if source.length ≤ c.srcOffset then some c else none
  | some bytesRead :: written :: results, c =>
    if 0 < bytesRead ∧ bytesRead ≤ bufSize ∧ c.srcOffset + bytesRead ≤ source.length then
      match written with
      | none =>
        -- the loop is left with `bytesRead` positive, so this is the only message
        if results = [] then
          some { c.failed (utf8 "Failed to write to file: ") filename with
            srcOffset := c.srcOffset + bytesRead }
        else none
      | some bytesWritten =>
        if 0 < bytesWritten ∧ bytesWritten ≤ bytesRead then
          copyFd source filename results (c.round source bytesRead bytesWritten)
        else none
    else none
  | _, _ => none

/-- Every `write` takes all that has been read. -/
def FullWrites : List CallResult → Prop
  | bytesRead :: written :: results => written = bytesRead ∧ FullWrites results
  | _ => True

/-- If nothing is reported, the destination is the source. -/
def CopiesFaithfully (source : Bytes) (c : Copy) : Prop := c.stderr = [] → c.dest = source

section Rounds
variable {source filename : Bytes} {results : List CallResult} {c d : Copy}

theorem copyFd_induction {P : List CallResult → Copy → Prop}
    (readFails : ∀ c what, d = c.failed what filename → P [none] c)
    (ended : source.length ≤ d.srcOffset → P [some 0] d)
    (writeFails : ∀ c bytesRead what,
      d = { c.failed what filename with srcOffset := c.srcOffset + bytesRead } →
      P [some bytesRead, none] c)
    (goesOn : ∀ c bytesRead bytesWritten results, 0 < bytesWritten → bytesWritten ≤ bytesRead →
      c.srcOffset + bytesRead ≤ source.length →
      P results (c.round source bytesRead bytesWritten) →
      P (some bytesRead :: some bytesWritten :: results) c)
    (h : copyFd source filename results c = some d) : P results c := by
  induction results, c using copyFd.induct source with
  | case1 c =>
    rw [copyFd] at h
    exact readFails c _ (Option.some.inj h).symm
  | case2 c hend =>
    rw [copyFd, if_pos hend] at h
    have hd := Option.some.inj h
    subst hd
    exact ended hend
  | case3 c hend =>
    rw [copyFd, if_neg hend] at h
    contradiction
  | case4 bytesRead c hread =>
    rw [copyFd, if_pos hread] at h
    exact writeFails c bytesRead _ (Option.some.inj h).symm
  | case5 bytesRead results c hread hrest =>
    simp only [copyFd, if_pos hread, if_neg hrest] at h
    contradiction
  | case6 bytesRead results c hread bytesWritten hwritten ih =>
    simp only [copyFd, if_pos hread, if_pos hwritten] at h
    exact goesOn c bytesRead bytesWritten results hwritten.1 hwritten.2 hread.2.2 (ih h)
  | case7 bytesRead results c hread bytesWritten hwritten =>
    simp only [copyFd, if_pos hread, if_neg hwritten] at h
    contradiction
  | case8 bytesRead written results c hread =>
    cases written <;> simp only [copyFd, if_neg hread, reduceCtorEq] at h
  | case9 results c h1 h2 h3 =>
    rw [copyFd] at h <;> first | contradiction | assumption

theorem copyFd_failed (h : copyFd source filename results c = some d) (hfail : none ∈ results) :
    d.stderr ≠ [] := by
  apply copyFd_induction (P := fun results _ => none ∈ results → d.stderr ≠ []) _ _ _ _ h hfail
  · intro c what hd _
    rw [hd]
    exact List.append_ne_nil_of_right_ne_nil _ (List.cons_ne_nil _ _)
  · intro _ hfail
    simp at hfail
  · intro c bytesRead what hd _
    rw [hd]
    exact List.append_ne_nil_of_right_ne_nil _ (List.cons_ne_nil _ _)
  · intro c bytesRead bytesWritten results _ _ _ ih hfail
    apply ih
    simpa using hfail

/-- What the calls have done, where none of them failed. -/
structure CopiedOn (source : Bytes) (results : List CallResult) (c d : Copy) : Prop where
  silent : d.stderr = c.stderr
  length_le : d.dest.length + c.srcOffset ≤ c.dest.length + source.length
  short : d.dest.length + c.srcOffset = c.dest.length + source.length → FullWrites results
  full : FullWrites results → d.dest = c.dest ++ source.drop c.srcOffset

/-- Both offsets are where the last calls left them. -/
structure Copy.Placed (source : Bytes) (c : Copy) : Prop where
  src : c.srcOffset ≤ source.length
  dest : c.destOffset = c.dest.length

theorem Copy.round_dest (hc : c.Placed source) (bytesRead bytesWritten : ℕ) :
    (c.round source bytesRead bytesWritten).dest =
      c.dest ++ ((source.drop c.srcOffset).take bytesRead).take bytesWritten := by
  simp only [Copy.round, hc.dest, writeAt_end]

theorem Copy.round_dest_length (hc : c.Placed source) {bytesRead bytesWritten : ℕ}
    (hwritten : bytesWritten ≤ bytesRead) (hread : c.srcOffset + bytesRead ≤ source.length) :
    (c.round source bytesRead bytesWritten).dest.length = c.dest.length + bytesWritten := by
  rw [Copy.round_dest hc, List.length_append, List.length_take, List.length_take,
    List.length_drop]
  omega

theorem Copy.Placed.round (hc : c.Placed source) {bytesRead bytesWritten : ℕ}
    (hwritten : bytesWritten ≤ bytesRead) (hread : c.srcOffset + bytesRead ≤ source.length) :
    (c.round source bytesRead bytesWritten).Placed source where
  src := hread
  dest := by
    rw [Copy.round_dest_length hc hwritten hread, ← hc.dest]
    rfl

/-- A round that writes less than it reads loses the rest for good. -/
theorem CopiedOn.round (hc : c.Placed source) {bytesRead bytesWritten : ℕ}
    (hwritten : bytesWritten ≤ bytesRead) (hread : c.srcOffset + bytesRead ≤ source.length)
    (ih : CopiedOn source results (c.round source bytesRead bytesWritten) d) :
    CopiedOn source (some bytesRead :: some bytesWritten :: results) c d := by
  have hlength := ih.length_le
  rw [Copy.round_dest_length hc hwritten hread] at hlength
  have hoffset : (c.round source bytesRead bytesWritten).srcOffset = c.srcOffset + bytesRead := rfl
  rw [hoffset] at hlength
  have hsilent : d.stderr = c.stderr := ih.silent
  apply CopiedOn.mk hsilent
  · omega
  · intro heq
    have hall : bytesWritten = bytesRead := by omega
    apply And.intro (congrArg some hall)
    apply ih.short
    rw [Copy.round_dest_length hc hwritten hread, hoffset]
    omega
  · rintro ⟨hall, hfull⟩
    have hall : bytesWritten = bytesRead := Option.some.inj hall
    rw [ih.full hfull, Copy.round_dest hc, hoffset, hall, List.take_take, Nat.min_self,
      List.append_assoc, ← List.drop_drop, List.take_append_drop]

theorem copyFd_copied (h : copyFd source filename results c = some d) (hc : c.Placed source)
    (hfail : none ∉ results) : CopiedOn source results c d := by
  apply copyFd_induction (P := fun results c => c.Placed source → none ∉ results →
    CopiedOn source results c d) _ _ _ _ h hc hfail
  · intro c what _ _ hfail
    simp at hfail
  · intro hend hd _
    apply CopiedOn.mk rfl
    · have hsrc := hd.src
      omega
    · intro _
      trivial
    · intro _
      rw [List.drop_of_length_le hend, List.append_nil]
  · intro c bytesRead what _ _ hfail
    simp at hfail
  · intro c bytesRead bytesWritten results _ hwritten hread ih hc hfail
    apply CopiedOn.round hc hwritten hread
    apply ih (hc.round hwritten hread)
    simpa using hfail

theorem Copy.opened_placed (source : Bytes) (n : ℤ) : (Copy.opened n).Placed source where
  src := Nat.zero_le _
  dest := rfl

end Rounds

theorem copyFd_faithful_iff (source filename : Bytes) (bytesCopied : ℤ)
    (results : List CallResult) (d : Copy)
    (h : copyFd source filename results (Copy.opened bytesCopied) = some d) :
    CopiesFaithfully source d ↔ none ∈ results ∨ FullWrites results := by
  by_cases hfail : none ∈ results
  · have hreported := copyFd_failed h hfail
    apply iff_of_true
    · intro hsilent
      exact absurd hsilent hreported
    · exact .inl hfail
  · have hcopied := copyFd_copied h (Copy.opened_placed source bytesCopied) hfail
    have hlength := hcopied.short
    constructor
    · intro hfaithful
      have hdest : d.dest = source := hfaithful hcopied.silent
      right
      apply hlength
      rw [hdest]
      exact Nat.add_comm _ _
    · rintro (hmem | hfull) _
      · exact absurd hmem hfail
      · exact hcopied.full hfull

theorem copyFd_faithful_twoBytes : none ∈ [some 2, some 2, some 0] ∨
    FullWrites [some 2, some 2, some 0] := by
  have h : copyFd [1, 2] [] [some 2, some 2, some 0] (Copy.opened 0) =
      some ⟨2, [1, 2], 2, 2, []⟩ := by decide
  exact (copyFd_faithful_iff [1, 2] [] 0 [some 2, some 2, some 0] _ h).mp fun _ => rfl

/-- The second of two bytes read at once is not written, and nobody asks for it again. -/
theorem copyFd_short_write : ∃ d,
    copyFd [1, 2] [] [some 2, some 1, some 0] (Copy.opened 0) = some d ∧
      ¬ CopiesFaithfully [1, 2] d := by
  apply Exists.intro ⟨2, [1], 1, 1, []⟩
  constructor
  · decide
  · intro hfaithful
    exact absurd (hfaithful rfl) (by decide)

end AdvancedCProjects.Copier
