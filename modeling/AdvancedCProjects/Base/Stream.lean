import AdvancedCProjects.Base.Bytes

/-!
# Reading from a byte stream

A read returns some non-empty prefix of the pending bytes, no longer than its
limit; how many bytes is not for the reader to decide.
-/

namespace Base

/-- A read of `n` bytes under a limit: what it returns and what stays pending. -/
def recv (limit n : ℕ) (pending : Bytes) : Option (Bytes × Bytes) :=
  if 0 < n ∧ n ≤ limit ∧ n ≤ pending.length then some (pending.take n, pending.drop n) else none

/-- A read into an integer variable of `w` bytes that held `old`: the bytes that
were not read keep their old values. -/
def recvInt (w n : ℕ) (old : ℤ) (pending : Bytes) : Option (ℤ × Bytes) :=
  (recv w n pending).map fun r => (decodeInt (r.1 ++ (encodeInt w old).drop r.1.length), r.2)

theorem recv_isSome {limit n : ℕ} {pending : Bytes} (h0 : 0 < n) (hl : n ≤ limit)
    (hp : n ≤ pending.length) : (recv limit n pending).isSome = true := by
  simp only [recv, if_pos (And.intro h0 (And.intro hl hp)), Option.isSome_some]

theorem recvInt_isSome {w : ℕ} (hw : 0 < w) {old : ℤ} {pending : Bytes}
    (hp : w ≤ pending.length) : (recvInt w w old pending).isSome = true := by
  simp only [recvInt, Option.isSome_map, recv_isSome hw le_rfl hp]

theorem recv_bounds {limit n : ℕ} {pending got rest : Bytes}
    (h : recv limit n pending = some (got, rest)) : 0 < n ∧ n ≤ limit ∧ got.length = n := by
  simp only [recv] at h
  split at h
  · next hlim =>
    cases h
    exact ⟨hlim.1, hlim.2.1, List.length_take_of_le hlim.2.2⟩
  · contradiction

theorem recvInt_lt {n : ℕ} {old x : ℤ} {pending rest : Bytes}
    (h : recvInt 4 n old pending = some (x, rest)) : x < 2 ^ 31 := by
  simp only [recvInt] at h
  obtain ⟨got, hgot, heq⟩ := Option.map_eq_some_iff.mp h
  obtain ⟨-, hn, hlen⟩ := recv_bounds hgot
  obtain ⟨rfl, -⟩ := Prod.mk.inj heq
  have hfour : (got.1 ++ (encodeInt 4 old).drop got.1.length).length = 4 := by
    rw [List.length_append, List.length_drop, encodeInt_length]
    omega
  have hwrap := wrapInt_decodeInt (got.1 ++ (encodeInt 4 old).drop got.1.length)
  rw [hfour] at hwrap
  rw [← hwrap]
  exact (wrapInt_range _).2

theorem recv_within {limit n : ℕ} {field later got rest : Bytes} (hn : n ≤ field.length)
    (h : recv limit n (field ++ later) = some (got, rest)) :
    ∃ tail, field = got ++ tail ∧ got.length = n ∧ 0 < n ∧ rest = tail ++ later := by
  simp only [recv] at h
  split at h
  · next hlim =>
    cases h
    refine ⟨field.drop n, ?_, ?_, hlim.1, ?_⟩
    · rw [List.take_append_of_le_length hn, List.take_append_drop]
    · simp only [List.length_take]
      omega
    · rw [List.drop_append_of_le_length hn]
  · contradiction

/-- One round of a loop that asks for what is left of a field. -/
theorem recv_round {n : ℕ} {field later got rest : Bytes}
    (h : recv field.length n (field ++ later) = some (got, rest)) :
    ∃ tail, field = got ++ tail ∧ got.length = n ∧ rest = tail ++ later ∧
      field.length - n = tail.length ∧ (n < field.length → tail ≠ []) ∧
      (¬ n < field.length → tail = []) := by
  obtain ⟨-, hn, -⟩ := recv_bounds h
  obtain ⟨tail, hfield, hlen, -, hrest⟩ := recv_within hn h
  have hsum : field.length = got.length + tail.length := by rw [hfield, List.length_append]
  refine ⟨tail, hfield, hlen, hrest, by omega, fun hlt => ?_, fun hdone => ?_⟩
  · exact List.ne_nil_of_length_pos (by omega)
  · exact List.length_eq_zero_iff.mp (by omega)

theorem recv_whole {limit : ℕ} {field : Bytes} (hf : field ≠ []) (hl : field.length ≤ limit)
    (later : Bytes) : recv limit field.length (field ++ later) = some (field, later) := by
  have hpos := List.length_pos_iff.mpr hf
  simp [recv, hpos, hl]

theorem recvInt_encodeInt {w : ℕ} (hw : 0 < w) (old x : ℤ) (later : Bytes) :
    recvInt w w old (encodeInt w x ++ later) = some (wrapInt w x, later) := by
  have hne : encodeInt w x ≠ [] := List.ne_nil_of_length_pos (by simpa using hw)
  have hr := recv_whole hne (encodeInt_length w x).le later
  rw [encodeInt_length] at hr
  have hold : (encodeInt w old).drop w = [] := List.drop_eq_nil_of_le (by simp)
  simp [recvInt, hr, hold, decodeInt_encodeInt]

theorem recvInt_of_fits {w : ℕ} (hw : 0 < w) (old : ℤ) {x : ℤ} (later : Bytes)
    (lo : -(256 ^ w) ≤ 2 * x) (hi : 2 * x < 256 ^ w) :
    recvInt w w old (encodeInt w x ++ later) = some (x, later) := by
  rw [recvInt_encodeInt hw, wrapInt_of_fits lo hi]

end Base
