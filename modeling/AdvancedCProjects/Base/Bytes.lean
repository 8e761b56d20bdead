import Mathlib.Tactic.NormNum
import Mathlib.Tactic.Ring
import Mathlib.Tactic.Zify
import Mathlib.Data.Int.ModEq
import Mathlib.Data.List.TakeWhile

/-!
# Bytes, machine integers and C strings

Integers cross a pipe or a socket as their object representation: little
endian, two's complement, `w` bytes. A C string is what precedes the first
zero byte.
-/

namespace Base

abbrev Byte := Fin 256

-- Named, so that every literal and every membership test uses the same proof.
instance byteNeZero : NeZero (256 : ℕ) := ⟨by decide⟩

instance byteZero : Zero Byte := ⟨0⟩

instance byteLawfulBEq : LawfulBEq Byte := inferInstance

abbrev Bytes := List Byte

def utf8 (s : String) : Bytes := s.toUTF8.data.toList.map UInt8.toFin

def bytesLE : ℕ → ℕ → Bytes
  | 0, _ => []
  | w + 1, r => ⟨r % 256, Nat.mod_lt _ (by norm_num)⟩ :: bytesLE w (r / 256)

def valueLE : Bytes → ℕ
  | [] => 0
  | b :: bs => b.val + 256 * valueLE bs

@[simp] theorem bytesLE_length (w r : ℕ) : (bytesLE w r).length = w := by
  induction w generalizing r with
  | zero => rfl
  | succ w ih => simp only [bytesLE, List.length_cons, ih]

theorem valueLE_bytesLE (w r : ℕ) : valueLE (bytesLE w r) = r % 256 ^ w := by
  induction w generalizing r with
  | zero => simp only [bytesLE, valueLE, Nat.pow_zero, Nat.mod_one]
  | succ w ih =>
    simp only [bytesLE, valueLE, ih]
    rw [pow_succ', Nat.mod_mul]

def encodeInt (w : ℕ) (x : ℤ) : Bytes := bytesLE w (x % 256 ^ w).toNat

def decodeInt (bs : Bytes) : ℤ := Int.bmod (valueLE bs) (256 ^ bs.length)

@[simp] theorem encodeInt_length (w : ℕ) (x : ℤ) : (encodeInt w x).length = w :=
  bytesLE_length w _

def wrapInt (w : ℕ) (x : ℤ) : ℤ := Int.bmod x (256 ^ w)

theorem wrapInt_of_fits {w : ℕ} {x : ℤ} (lo : -(256 ^ w) ≤ 2 * x) (hi : 2 * x < 256 ^ w) :
    wrapInt w x = x := by
  have hcast : ((256 ^ w : ℕ) : ℤ) = 256 ^ w := by push_cast; rfl
  have hlo : -((256 ^ w : ℕ) : ℤ) ≤ 2 * x := by omega
  have hhi : 2 * x < ((256 ^ w : ℕ) : ℤ) := by omega
  apply Int.bmod_eq_of_le_mul_two <;> omega

theorem wrapInt_length {n : ℕ} (hn : n < 2 ^ 31) : wrapInt 4 n = n := by
  apply wrapInt_of_fits <;> omega

theorem wrapInt_range (x : ℤ) : -2 ^ 31 ≤ wrapInt 4 x ∧ wrapInt 4 x < 2 ^ 31 := by
  have hle := Int.le_bmod (x := x) (m := 256 ^ 4) (by norm_num)
  have hlt := Int.bmod_lt (x := x) (m := 256 ^ 4) (by norm_num)
  exact ⟨by simpa [wrapInt] using hle, by simpa [wrapInt] using hlt⟩

theorem wrapInt_natCast_le (n : ℕ) : wrapInt 4 n ≤ n ∧ wrapInt 4 n < 2 ^ 31 := by
  refine ⟨?_, (wrapInt_range n).2⟩
  simp only [wrapInt, Int.bmod_def]
  split <;> omega

theorem wrapInt_decodeInt (bs : Bytes) : wrapInt bs.length (decodeInt bs) = decodeInt bs :=
  Int.bmod_bmod

theorem decodeInt_encodeInt (w : ℕ) (x : ℤ) : decodeInt (encodeInt w x) = wrapInt w x := by
  have hpos : (0 : ℤ) < 256 ^ w := by positivity
  have hlt : (x % 256 ^ w).toNat < 256 ^ w := by
    have h := Int.emod_lt_of_pos x hpos
    have h0 := Int.emod_nonneg x hpos.ne'
    zify
    omega
  rw [decodeInt, encodeInt_length, encodeInt, valueLE_bytesLE, Nat.mod_eq_of_lt hlt,
    Int.toNat_of_nonneg (Int.emod_nonneg x hpos.ne'), wrapInt]
  have hcast : ((256 ^ w : ℕ) : ℤ) = 256 ^ w := by push_cast; rfl
  rw [← hcast, Int.emod_bmod]

def cstr (bs : Bytes) : Bytes := bs.takeWhile (· ≠ 0)

theorem cstr_append {s : Bytes} (hs : (0 : Byte) ∉ s) (t : Bytes) : cstr (s ++ 0 :: t) = s := by
  induction s with
  | nil => simp [cstr]
  | cons b s ih =>
    have hb : b ≠ 0 := fun h => hs (h ▸ List.mem_cons_self)
    have hrest : (0 : Byte) ∉ s := fun h => hs (List.mem_cons_of_mem b h)
    have ih := ih hrest
    simp only [cstr] at ih ⊢
    simp only [List.cons_append, List.takeWhile_cons, hb, ne_eq, not_false_eq_true, decide_true,
      if_true, ih]

theorem cstr_self {s : Bytes} (hs : (0 : Byte) ∉ s) : cstr s = s := by
  have hall : ∀ b ∈ s, decide (b ≠ 0) = true := by
    intro b hb
    exact decide_eq_true fun h => hs (h ▸ hb)
  exact List.takeWhile_eq_self_iff.mpr hall

theorem cstr_append_of_noZero {text tail : Bytes} (h : (0 : Byte) ∉ text) :
    cstr (text ++ tail) = text ++ cstr tail := by
  unfold cstr
  apply List.takeWhile_append_of_pos
  intro b hb
  exact decide_eq_true fun hzero => h (hzero ▸ hb)

theorem zero_not_mem_cstr (memory : Bytes) : (0 : Byte) ∉ cstr memory := by
  intro hmem
  have hne := List.mem_takeWhile_imp hmem
  simp at hne

theorem exists_behind_cstr (memory : Bytes) :
    ∃ tail, memory = cstr memory ++ tail ∧ cstr tail = [] := by
  refine ⟨memory.dropWhile (· ≠ 0), List.takeWhile_append_dropWhile.symm, ?_⟩
  have hsplit : memory = cstr memory ++ memory.dropWhile (· ≠ 0) :=
    List.takeWhile_append_dropWhile.symm
  have hcstr := congrArg cstr hsplit
  rw [cstr_append_of_noZero (zero_not_mem_cstr memory)] at hcstr
  exact List.append_right_eq_self.mp hcstr.symm

theorem exists_terminator {memory : Bytes} (h : (0 : Byte) ∈ memory) :
    ∃ tail, memory = cstr memory ++ 0 :: tail := by
  obtain ⟨tail, htail, hnone⟩ := exists_behind_cstr memory
  cases tail with
  | nil =>
    rw [List.append_nil] at htail
    exact absurd (htail ▸ h) (zero_not_mem_cstr memory)
  | cons b tail =>
    have hb : b = 0 := by
      by_contra hne
      rw [cstr, List.takeWhile_cons, if_pos (decide_eq_true hne)] at hnone
      contradiction
    exact ⟨tail, hb ▸ htail⟩

end Base
