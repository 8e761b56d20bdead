import AdvancedCProjects.Base.Bytes

/-!
# Lines of text

White space as `isspace` has it in the C locale, and the lines of a file as
`fgets` returns them.
-/

namespace Base

def space : Byte := 32
def newline : Byte := 10

def isSpace (b : Byte) : Bool := b = space ∨ (9 ≤ b ∧ b ≤ 13)

/-- `fgets` with room for `n` bytes: the piece and the rest of the file. -/
def fgets : ℕ → Bytes → Bytes × Bytes
  | 0, file => ([], file)
  | _ + 1, [] => ([], [])
  | n + 1, b :: file =>
    if b = newline then ([b], file) else (b :: (fgets n file).1, (fgets n file).2)

theorem fgets_line {n : ℕ} {line rest : Bytes} (hline : newline ∉ line) (hn : line.length < n) :
    fgets n (line ++ newline :: rest) = (line ++ [newline], rest) := by
  induction line generalizing n with
  | nil =>
    obtain ⟨n, rfl⟩ : ∃ m, n = m + 1 := ⟨n - 1, by simp at hn; omega⟩
    rfl
  | cons b line ih =>
    obtain ⟨n, rfl⟩ : ∃ m, n = m + 1 := ⟨n - 1, by omega⟩
    have hb : b ≠ newline := fun h => hline (h ▸ List.mem_cons_self)
    have ih := ih (n := n) (fun h => hline (List.mem_cons_of_mem _ h)) (by simpa using hn)
    rw [List.cons_append, fgets, if_neg hb, ih]
    rfl

theorem fgets_append (n : ℕ) (file : Bytes) : (fgets n file).1 ++ (fgets n file).2 = file := by
  induction n generalizing file with
  | zero => rfl
  | succ n ih =>
    cases file with
    | nil => rfl
    | cons b file =>
      rw [fgets]
      split
      · rfl
      · exact congrArg (b :: ·) (ih file)

theorem fgets_rest_le (n : ℕ) (file : Bytes) : (fgets n file).2.length ≤ file.length := by
  have h := congrArg List.length (fgets_append n file)
  rw [List.length_append] at h
  omega

theorem fgets_piece_le (n : ℕ) (file : Bytes) : (fgets n file).1.length ≤ n := by
  induction n generalizing file with
  | zero => simp [fgets]
  | succ n ih =>
    cases file with
    | nil => simp [fgets]
    | cons b file =>
      have h := ih file
      simp only [fgets]
      split
      · simp
      · simpa using h

end Base
