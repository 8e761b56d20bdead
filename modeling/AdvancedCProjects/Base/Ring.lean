import Mathlib.Data.Nat.ModEq
import Mathlib.Logic.Function.Basic

/-!
# Ring buffers of one spare slot

`n` slots with an index of the next write and an index of the next read, both
taken modulo `n`. The buffer is empty when the indices agree, so at most
`n - 1` slots are in use. `Holds n r xs` says that the slots from `out` up to
`inp` hold exactly the list `xs`.
-/

namespace Base

structure RingBuffer (α : Type) where
  slots : ℕ → α
  inp : ℕ
  out : ℕ

namespace RingBuffer
variable {α : Type} {n : ℕ} {r : RingBuffer α} {x : α} {xs : List α}

def put (n : ℕ) (r : RingBuffer α) (x : α) : RingBuffer α :=
  { r with slots := Function.update r.slots r.inp x, inp := (r.inp + 1) % n }

def drop (n : ℕ) (r : RingBuffer α) : RingBuffer α := { r with out := (r.out + 1) % n }

def contents (n : ℕ) (r : RingBuffer α) : List α :=
  (List.range ((r.inp + n - r.out) % n)).map fun i => r.slots ((r.out + i) % n)

structure Holds (n : ℕ) (r : RingBuffer α) (xs : List α) : Prop where
  spare : xs.length < n
  out_lt : r.out < n
  inp_eq : r.inp = (r.out + xs.length) % n
  slot : ∀ i (h : i < xs.length), r.slots ((r.out + i) % n) = xs[i]

theorem wrap_eq {a b : ℕ} (ha : a < n) (hb : b ≤ n) :
    (a + b) % n = if a + b < n then a + b else a + b - n := by
  split
  · next h => exact Nat.mod_eq_of_lt h
  · next h =>
    rw [Nat.mod_eq_sub_mod (Nat.le_of_not_lt h)]
    exact Nat.mod_eq_of_lt (by omega)

theorem wrap_inj {a i j : ℕ} (ha : a < n) (hi : i < n) (hj : j < n)
    (h : (a + i) % n = (a + j) % n) : i = j := by
  rw [wrap_eq ha hi.le, wrap_eq ha hj.le] at h
  split at h <;> split at h <;> omega

theorem wrap_succ {a i : ℕ} : ((a + 1) % n + i) % n = (a + (i + 1)) % n := by
  rw [Nat.mod_add_mod, Nat.add_assoc, Nat.add_comm 1 i]

theorem holds_nil (hn : r.out < n) (h : r.inp = r.out) : Holds n r [] where
  spare := by simp only [List.length_nil]; omega
  out_lt := hn
  inp_eq := by rw [h, List.length_nil, Nat.add_zero, Nat.mod_eq_of_lt hn]
  slot i hi := absurd hi (Nat.not_lt_zero i)

namespace Holds

theorem empty_iff (h : Holds n r xs) : r.inp = r.out ↔ xs = [] := by
  have hw := wrap_eq h.out_lt h.spare.le
  rw [← h.inp_eq] at hw
  constructor
  · intro he
    rw [he] at hw
    have hz : xs.length = 0 := by have := h.out_lt; have := h.spare; split at hw <;> omega
    exact List.length_eq_zero_iff.mp hz
  · rintro rfl
    simpa using h.inp_eq.trans (Nat.mod_eq_of_lt h.out_lt)

theorem length_eq (h : Holds n r xs) : xs.length = (r.inp + n - r.out) % n := by
  have hs := h.spare
  have ho := h.out_lt
  have hw := wrap_eq ho hs.le
  rw [← h.inp_eq] at hw
  by_cases hc : r.out + xs.length < n
  · rw [if_pos hc] at hw
    have he : r.inp + n - r.out = xs.length + n := by omega
    rw [he, Nat.add_mod_right, Nat.mod_eq_of_lt hs]
  · rw [if_neg hc] at hw
    have he : r.inp + n - r.out = xs.length := by omega
    rw [he, Nat.mod_eq_of_lt hs]

theorem contents_eq (h : Holds n r xs) : r.contents n = xs := by
  rw [contents, ← h.length_eq]
  apply List.ext_getElem
  · simp
  · intro i hi hi'
    simpa using h.slot i hi'

/-- With a spare slot the next write goes to none of the slots in use. -/
theorem inp_free (h : Holds n r xs) {i : ℕ} (hi : i < xs.length) : (r.out + i) % n ≠ r.inp := by
  have hs := h.spare
  rw [h.inp_eq]
  intro he
  have heq := wrap_inj h.out_lt (by omega) hs he
  omega

/-- The writer's test finds the buffer full exactly when `n - 1` slots are in use. -/
theorem full_iff (h : Holds n r xs) : (r.inp + 1) % n = r.out ↔ xs.length + 1 = n := by
  have hs := h.spare
  have ho := h.out_lt
  have hw := wrap_eq ho (Nat.succ_le_of_lt hs)
  rw [h.inp_eq, Nat.mod_add_mod, Nat.add_assoc, hw]
  constructor
  · intro he
    split at he <;> omega
  · intro he
    rw [if_neg (by omega)]
    omega

theorem put (h : Holds n r xs) (room : (r.inp + 1) % n ≠ r.out) :
    Holds n (r.put n x) (xs ++ [x]) where
  spare := by
    have hne := mt h.full_iff.mpr room
    have hs := h.spare
    simp only [List.length_append, List.length_singleton]
    omega
  out_lt := h.out_lt
  inp_eq := by
    simp only [RingBuffer.put, h.inp_eq, Nat.mod_add_mod, List.length_append, List.length_singleton,
      Nat.add_assoc]
  slot i hi := by
    have hs := h.spare
    simp only [List.length_append, List.length_singleton] at hi
    by_cases hlast : i = xs.length
    · subst hlast
      simp [RingBuffer.put, h.inp_eq]
    · have hold : i < xs.length := by omega
      have hne : (r.out + i) % n ≠ r.inp := h.inp_free hold
      simp only [RingBuffer.put, Function.update_of_ne hne, List.getElem_append_left hold]
      exact h.slot i hold

theorem head (h : Holds n r (x :: xs)) : r.slots r.out = x := by
  have h0 := h.slot 0 (by simp)
  rwa [Nat.add_zero, Nat.mod_eq_of_lt h.out_lt] at h0

theorem drop (h : Holds n r (x :: xs)) : Holds n (r.drop n) xs where
  spare := by have hs := h.spare; simp only [List.length_cons] at hs; omega
  out_lt := Nat.mod_lt _ (Nat.zero_lt_of_lt h.out_lt)
  inp_eq := by
    have hi := h.inp_eq
    simp only [List.length_cons] at hi
    simp only [RingBuffer.drop, hi, wrap_succ]
  slot i hi := by
    have hs := h.slot (i + 1) (by simpa using hi)
    simpa only [RingBuffer.drop, wrap_succ, List.getElem_cons_succ] using hs

end Holds
end RingBuffer
end Base
