import Mathlib.Data.Int.Notation
import Mathlib.Data.List.Basic

/-!
# Writes into blocks of memory

A write is given by the block it is meant for and an index that may lie anywhere.
-/

namespace Base

class Sized (β : Type) where
  size : β → ℕ

structure Write (β : Type) where
  block : β
  index : ℤ
  deriving DecidableEq

section Writes
variable {β : Type}

/-- The indices of `n` bytes from `first` on. -/
def span (b : β) (first n : ℕ) : List (Write β) :=
  (List.range n).map fun i => ⟨b, (first + i : ℕ)⟩

variable [Sized β]

def Write.Inside (w : Write β) : Prop := 0 ≤ w.index ∧ w.index < Sized.size w.block

instance (w : Write β) : Decidable w.Inside := inferInstanceAs (Decidable (_ ∧ _))

def AllInside (ws : List (Write β)) : Prop := ∀ w ∈ ws, w.Inside

instance (ws : List (Write β)) : Decidable (AllInside ws) :=
  inferInstanceAs (Decidable (∀ w ∈ ws, _))

theorem allInside_append (vs ws : List (Write β)) :
    AllInside (vs ++ ws) ↔ AllInside vs ∧ AllInside ws := List.forall_mem_append

theorem allInside_nil : AllInside ([] : List (Write β)) := fun _ hw => absurd hw List.not_mem_nil

theorem allInside_singleton (w : Write β) : AllInside [w] ↔ w.Inside := List.forall_mem_singleton

theorem span_inside (b : β) (first n : ℕ) :
    AllInside (span b first n) ↔ n = 0 ∨ first + n ≤ Sized.size b := by
  constructor
  · intro h
    cases n with
    | zero => exact .inl rfl
    | succ n =>
      have hmem : n ∈ List.range (n + 1) := List.mem_range.mpr n.lt_succ_self
      have hlast := h ⟨b, (first + n : ℕ)⟩ (List.mem_map_of_mem hmem)
      have hlt : ((first + n : ℕ) : ℤ) < Sized.size b := hlast.2
      omega
  · intro h w hw
    obtain ⟨i, hi, rfl⟩ := List.mem_map.mp hw
    have hlt := List.mem_range.mp hi
    have hsize : ((first + i : ℕ) : ℤ) < Sized.size b := by omega
    exact ⟨Int.natCast_nonneg _, hsize⟩

theorem span_string (b : β) (first n : ℕ) :
    AllInside (span b first (n + 1)) ↔ first + n < Sized.size b := by
  rw [span_inside]
  omega

end Writes
end Base
