import AdvancedCProjects.Base.Bytes

/-!
# Counting in an integer of fixed width

Several threads add to one counter what they have in hand for it. As far as the
width goes, the counter and what is in hand make up the total at any time; when
nothing is in hand, the counter is the total just when the total fits.
-/

namespace Base

structure Tally (w : ℕ) (counter : ℤ) (inHand total : ℕ) : Prop where
  range : wrapInt w counter = counter
  sum : wrapInt w (counter + inHand) = wrapInt w total

namespace Tally
variable {w inHand total : ℕ} {counter : ℤ}

theorem zero (w : ℕ) : Tally w 0 0 0 where
  range := by simp [wrapInt]
  sum := rfl

theorem take (h : Tally w counter inHand total) (n : ℕ) :
    Tally w counter (inHand + n) (total + n) where
  range := h.range
  sum := by
    have hsum := h.sum
    unfold wrapInt at hsum ⊢
    have hleft : counter + ((inHand + n : ℕ) : ℤ) = counter + inHand + n := by push_cast; ring
    rw [hleft, ← Int.bmod_add_bmod, hsum, Int.bmod_add_bmod, Nat.cast_add]

theorem add {n : ℕ} (h : Tally w counter (inHand + n) total) :
    Tally w (wrapInt w (counter + n)) inHand total where
  range := by
    unfold wrapInt
    exact Int.bmod_bmod
  sum := by
    rw [← h.sum]
    unfold wrapInt
    rw [Int.bmod_add_bmod]
    congr 1
    push_cast
    ring

theorem settled (h : Tally w counter 0 total) : counter = wrapInt w total := by
  have hsum := h.sum
  rw [Nat.cast_zero, add_zero] at hsum
  exact h.range.symm.trans hsum

end Tally

/-- A number is counted right in an `int` just when it is one. -/
theorem wrapInt_eq_iff {n : ℕ} : wrapInt 4 n = n ↔ n < 2 ^ 31 := by
  constructor
  · intro h
    have hrange := (wrapInt_range n).2
    rw [h] at hrange
    exact_mod_cast hrange
  · exact wrapInt_length

/-- One number too many is not seen when an `int` comes round with it. -/
theorem wrapInt_add_eq_iff {m n : ℕ} : wrapInt 4 (m + n : ℕ) = wrapInt 4 n ↔ 2 ^ 32 ∣ m := by
  unfold wrapInt
  rw [Int.bmod_eq_bmod_iff_bmod_sub_eq_zero, ← Int.dvd_iff_bmod_eq_zero, Nat.cast_add,
    add_sub_cancel_right, Int.natCast_dvd_natCast]
  norm_num

theorem wrapInt_add_eq_self_iff {m n : ℕ} :
    wrapInt 4 (m + n : ℕ) = n ↔ n < 2 ^ 31 ∧ 2 ^ 32 ∣ m := by
  constructor
  · intro h
    have hrange := (wrapInt_range (m + n : ℕ)).2
    rw [h] at hrange
    have hfits : n < 2 ^ 31 := by exact_mod_cast hrange
    exact ⟨hfits, wrapInt_add_eq_iff.mp (h.trans (wrapInt_length hfits).symm)⟩
  · intro ⟨hfits, hdvd⟩
    rw [wrapInt_add_eq_iff.mpr hdvd, wrapInt_length hfits]

theorem Tally.exact_iff {total : ℕ} {counter : ℤ} (h : Tally 4 counter 0 total) :
    counter = total ↔ total < 2 ^ 31 := by
  rw [h.settled]
  exact wrapInt_eq_iff

end Base
