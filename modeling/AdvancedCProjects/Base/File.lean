import Mathlib.Data.List.Basic

/-!
# The contents of a file

A write at an offset behind the end fills the gap with zeros; a write of no
bytes does nothing.
-/

namespace Base

section File
variable {α : Type} [Zero α]

def writeAt (file : List α) (offset : ℕ) (data : List α) : List α :=
  if data = [] then file
  else file.take offset ++ List.replicate (offset - file.length) 0 ++ data ++
    file.drop (offset + data.length)

variable (file data : List α) (offset : ℕ)

theorem front_length :
    (file.take offset ++ List.replicate (offset - file.length) (0 : α)).length = offset := by
  simp only [List.length_append, List.length_take, List.length_replicate]
  omega

theorem writeAt_length (h : data ≠ []) :
    (writeAt file offset data).length = max file.length (offset + data.length) := by
  simp only [writeAt, if_neg h, List.length_append, List.length_take, List.length_replicate,
    List.length_drop]
  omega

theorem writeAt_end : writeAt file file.length data = file ++ data := by
  by_cases h : data = []
  · simp [writeAt, h]
  · simp [writeAt, h]

theorem getElem?_writeAt_data (i : ℕ) (h : i < data.length) :
    (writeAt file offset data)[offset + i]? = data[i]? := by
  have hne : data ≠ [] := List.ne_nil_of_length_pos (by omega)
  have hfront := front_length file offset
  rw [writeAt, if_neg hne, List.append_assoc, List.getElem?_append_right (by omega), hfront,
    List.getElem?_append_left (by omega)]
  congr 1
  omega

theorem getElem?_writeAt_before (i : ℕ) (h : i < offset) (hne : data ≠ []) :
    (writeAt file offset data)[i]? = some (file[i]?.getD 0) := by
  have hfront := front_length file offset
  rw [writeAt, if_neg hne, List.append_assoc, List.getElem?_append_left (by omega)]
  by_cases hi : i < file.length
  · rw [List.getElem?_append_left (by simp; omega), List.getElem?_take_of_lt h]
    simp [hi]
  · rw [List.getElem?_append_right (by simp; omega), List.getElem?_replicate]
    simp only [List.length_take, List.getElem?_eq_none (Nat.le_of_not_lt hi), Option.getD_none]
    exact if_pos (by omega)

theorem getElem?_writeAt_after (i : ℕ) (h : offset + data.length ≤ i) :
    (writeAt file offset data)[i]? = file[i]? := by
  by_cases hne : data = []
  · rw [writeAt, if_pos hne]
  · have hfront : (file.take offset ++ List.replicate (offset - file.length) 0 ++ data).length
        = offset + data.length := by
      rw [List.length_append, front_length]
    rw [writeAt, if_neg hne, List.getElem?_append_right (by omega), hfront, List.getElem?_drop]
    congr 1
    omega

theorem take_writeAt {k : ℕ} (hk : k ≤ offset) (hlen : k ≤ file.length) :
    (writeAt file offset data).take k = file.take k := by
  by_cases hne : data = []
  · rw [writeAt, if_pos hne]
  · refine List.ext_getElem? fun i => ?_
    by_cases hi : i < k
    · have hfile : file[i]? = some file[i] := List.getElem?_eq_getElem (by omega)
      rw [List.getElem?_take_of_lt hi, List.getElem?_take_of_lt hi,
        getElem?_writeAt_before _ _ _ i (by omega) hne, hfile, Option.getD_some]
    · rw [List.getElem?_take_eq_none (by omega), List.getElem?_take_eq_none (by omega)]

end File
end Base
