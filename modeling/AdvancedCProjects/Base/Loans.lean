import Mathlib.Data.List.Basic
import Mathlib.Logic.Function.Basic

/-!
# References to cells that are used again

A cell holds a value, or nothing once it is gone. A loan is a reference to a cell
that has been handed out, with the value that the cell had then; the loans are
intact as long as each of them still reads its value.
-/

namespace Base

def Intact {κ ν : Type} (cell : κ → Option ν) (loans : List (κ × ν)) : Prop :=
  ∀ l ∈ loans, cell l.1 = some l.2

namespace Intact
variable {κ ν : Type} {cell cell' : κ → Option ν} {loans loans' : List (κ × ν)} {k : κ} {v : ν}
  {c : Option ν}

theorem nil (cell : κ → Option ν) : Intact cell [] :=
  fun _ hl => absurd hl List.not_mem_nil

theorem congr (h : Intact cell loans) (same : ∀ l ∈ loans, cell' l.1 = cell l.1) :
    Intact cell' loans := by
  intro l hl
  rw [same l hl]
  exact h l hl

theorem mono (h : Intact cell loans) (sub : loans' ⊆ loans) : Intact cell loans' :=
  fun l hl => h l (sub hl)

theorem lend (h : Intact cell loans) (hk : cell k = some v) : Intact cell ((k, v) :: loans) := by
  intro l hl
  rcases List.mem_cons.mp hl with rfl | hold
  · exact hk
  · exact h l hold

/-- A cell may be written, or go, just when no reference to it is out or it keeps
its value. -/
theorem update_iff [DecidableEq κ] (h : Intact cell loans) :
    Intact (Function.update cell k c) loans ↔ ∀ l ∈ loans, l.1 = k → cell k = c := by
  constructor
  · intro hnew l hl heq
    have hread := hnew l hl
    rw [heq, Function.update_self] at hread
    rw [hread, ← h l hl, heq]
  · intro hkeep l hl
    by_cases heq : l.1 = k
    · rw [heq, Function.update_self, ← hkeep l hl heq, ← heq]
      exact h l hl
    · rw [Function.update_of_ne heq]
      exact h l hl

end Intact
end Base
