import AdvancedCProjects.Base.Descriptors
import Mathlib.Data.Int.Notation

/-!
# Copies of descriptors (my_dup.c:23-53)

`mydup2` is made of `fcntl` and `close`. A table has room for the
descriptors below `limit`.
-/

namespace AdvancedCProjects.Hw1
open Base

section Calls
variable {F : Type} (limit : ℕ) (table : Descriptors F) (oldfd newfd : ℕ)

def mydup2 : ℤ × Descriptors F :=
  -- a descriptor that is not open has no flags
  let table := if table newfd = none then table else table.close newfd
  if newfd = oldfd then
    if table oldfd = none then (-1, table) else (newfd, table)
  else match table.dupFrom limit oldfd newfd with
    | none => (-1, table)
    | some (res, table) => (res, table)

/-- What POSIX says of `dup2`. -/
def dup2Call : ℤ × Descriptors F :=
  if table oldfd = none ∨ limit ≤ newfd then (-1, table) else (newfd, table.dup2 oldfd newfd)

/-- `mydup2` does what `dup2` does, in each of the three cases. -/
structure AgreesWithDup2 : Prop where
  same : mydup2 limit table oldfd newfd = dup2Call limit table oldfd newfd
  invalid : table oldfd = none → mydup2 limit table oldfd newfd = (-1, table)
  equal : oldfd = newfd → table oldfd ≠ none → mydup2 limit table oldfd newfd = (↑newfd, table)
  copied : ∀ file, oldfd ≠ newfd → table oldfd = some file →
    (mydup2 limit table oldfd newfd).1 = newfd ∧
    (mydup2 limit table oldfd newfd).2 newfd = some file ∧
    ∀ fd ≠ newfd, (mydup2 limit table oldfd newfd).2 fd = table fd

end Calls

section Cases
variable {F : Type} {limit : ℕ} {table : Descriptors F} {oldfd newfd : ℕ} {file : OpenFile F}

/-- The three cases are those of `dup2`. -/
theorem agreesWithDup2_of_same (hnew : newfd < limit)
    (h : mydup2 limit table oldfd newfd = dup2Call limit table oldfd newfd) :
    AgreesWithDup2 limit table oldfd newfd where
  same := h
  invalid hold := by rw [h, dup2Call, if_pos (.inl hold)]
  equal heq hold := by
    have hvalid : ¬ (table oldfd = none ∨ limit ≤ newfd) := not_or.mpr ⟨hold, by omega⟩
    rw [h, dup2Call, if_neg hvalid, heq, Descriptors.dup2_self]
  copied file hne hold := by
    have hopen : table oldfd ≠ none := hold ▸ Option.some_ne_none file
    have hvalid : ¬ (table oldfd = none ∨ limit ≤ newfd) := not_or.mpr ⟨hopen, by omega⟩
    rw [h, dup2Call, if_neg hvalid]
    dsimp only
    have hread : ∀ fd, table.dup2 oldfd newfd fd = _ := Descriptors.dup2_apply hold
    refine ⟨rfl, ?_, fun fd hfd => ?_⟩
    · rw [hread, if_pos rfl]
    · rw [hread, if_neg hfd]

theorem mydup2_free (hnew : newfd < limit) (hfree : table newfd = none) :
    mydup2 limit table oldfd newfd = dup2Call limit table oldfd newfd := by
  unfold mydup2 dup2Call
  rw [if_pos hfree]
  dsimp only
  by_cases heq : newfd = oldfd
  · subst heq
    rw [if_pos rfl, if_pos hfree, if_pos (.inl hfree)]
  · rw [if_neg heq]
    cases hold : table oldfd with
    | none => rw [Descriptors.dupFrom_closed hold, if_pos (.inl rfl)]
    | some file =>
      have hvalid : ¬ (some file = none ∨ limit ≤ newfd) := by
        rintro (h | h)
        · contradiction
        · omega
      rw [Descriptors.dupFrom_free hold hnew hfree, if_neg hvalid]

theorem mydup2_replaced (hnew : newfd < limit) (hopen : table newfd ≠ none) (hne : oldfd ≠ newfd)
    (hold : table oldfd = some file) :
    mydup2 limit table oldfd newfd = dup2Call limit table oldfd newfd := by
  have hvalid : ¬ (table oldfd = none ∨ limit ≤ newfd) := by
    rw [hold]
    rintro (h | h)
    · contradiction
    · omega
  have hkept : table.close newfd oldfd = some file := by
    rw [Descriptors.close_apply, if_neg hne, hold]
  have hfree : table.close newfd newfd = none := by
    rw [Descriptors.close_apply, if_pos rfl]
  have htable : (table.close newfd).dup2 oldfd newfd = table.dup2 oldfd newfd := by
    rw [Descriptors.dup2, hkept, Descriptors.dup2, hold]
    exact Function.update_idem ..
  rw [mydup2, dup2Call, if_neg hopen]
  rw [if_neg hne.symm, Descriptors.dupFrom_free hkept hnew hfree, if_neg hvalid, htable]

/-- Where `newfd` is closed for nothing. -/
theorem mydup2_closed (hopen : table newfd ≠ none) (h : oldfd = newfd ∨ table oldfd = none) :
    mydup2 limit table oldfd newfd = (-1, table.close newfd) := by
  have hfree : table.close newfd newfd = none := by
    rw [Descriptors.close_apply, if_pos rfl]
  rw [mydup2, if_neg hopen]
  by_cases heq : newfd = oldfd
  · rw [if_pos heq, ← heq, if_pos hfree]
  · have hold : table.close newfd oldfd = none := by
      rw [Descriptors.close_apply, if_neg (Ne.symm heq)]
      exact h.resolve_left (Ne.symm heq)
    rw [if_neg heq, Descriptors.dupFrom_closed hold]

theorem close_ne (hopen : table newfd ≠ none) : table.close newfd ≠ table := by
  intro heq
  have hfree := Descriptors.close_apply table newfd newfd
  rw [heq, if_pos rfl] at hfree
  exact hopen hfree

end Cases

/-- `mydup2` closes an open `newfd` before it knows whether it can copy `oldfd`. -/
theorem agreesWithDup2_iff {F : Type} (limit : ℕ) (table : Descriptors F) (oldfd newfd : ℕ)
    (hnew : newfd < limit) : AgreesWithDup2 limit table oldfd newfd ↔
      table newfd = none ∨ (oldfd ≠ newfd ∧ table oldfd ≠ none) := by
  constructor
  · intro h
    by_contra hnot
    obtain ⟨hopen, hcase⟩ := not_or.mp hnot
    have hlost : oldfd = newfd ∨ table oldfd = none := by
      by_contra hno
      exact hcase (not_or.mp hno)
    have hclosed : mydup2 limit table oldfd newfd = _ := mydup2_closed hopen hlost
    by_cases hold : table oldfd = none
    · have htable := (hclosed.symm.trans (h.invalid hold))
      exact close_ne hopen (congrArg Prod.snd htable)
    · have htable := hclosed.symm.trans (h.equal (hlost.resolve_right hold) hold)
      exact close_ne hopen (congrArg Prod.snd htable)
  · rintro (hfree | ⟨hne, hold⟩)
    · exact agreesWithDup2_of_same hnew (mydup2_free hnew hfree)
    · obtain ⟨file, hold⟩ := Option.ne_none_iff_exists'.mp hold
      by_cases hopen : table newfd = none
      · exact agreesWithDup2_of_same hnew (mydup2_free hnew hopen)
      · exact agreesWithDup2_of_same hnew (mydup2_replaced hnew hopen hne hold)

/-- The descriptors 0, 1 and 2 are open. -/
def standard : Descriptors Unit := fun fd => if fd < 3 then some (.other ()) else none

theorem stdout_copied : AgreesWithDup2 1024 standard 1 2 :=
  (agreesWithDup2_iff 1024 standard 1 2 (by decide)).mpr (.inr ⟨by decide, by decide⟩)

/-- `mydup2(1, 1)` closes the descriptor 1 and then finds it closed. -/
theorem equal_closed : ¬ ∀ limit (table : Descriptors Unit) oldfd newfd,
    oldfd < limit → newfd < limit → AgreesWithDup2 limit table oldfd newfd := by
  intro h
  have hequal := (h 1024 standard 1 1 (by decide) (by decide)).equal rfl (by decide)
  have hclosed : (mydup2 1024 standard 1 1).1 = -1 := by decide
  rw [hequal] at hclosed
  exact absurd hclosed (by decide)

end AdvancedCProjects.Hw1
