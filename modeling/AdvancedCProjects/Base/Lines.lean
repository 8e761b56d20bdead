import AdvancedCProjects.Base.Text

/-!
# Lines and pieces of lines

The lines of a text, and what `fgets` returns of it one call after the other when
a line need not fit its buffer.
-/

namespace Base

/-- Each line has its newline; the last may have none. -/
def lines : Bytes → List Bytes
  | [] => []
  | b :: text =>
    if b = newline then [b] :: lines text
    else match lines text with
      | [] => [[b]]
      | line :: rest => (b :: line) :: rest

/-- A line in pieces of `n` bytes; the last may be shorter. -/
def cut (n : ℕ) : Bytes → List Bytes
  | [] => []
  | b :: line => (b :: line.take (n - 1)) :: cut n (line.drop (n - 1))
termination_by line => line.length
decreasing_by
  simp only [List.length_drop, List.length_cons]
  omega

def pieces (n : ℕ) (text : Bytes) : List Bytes := (lines text).flatMap (cut n)

section Lines
variable {text line : Bytes} {rest : List Bytes} {n : ℕ}

theorem eq_nil_of_lines (h : lines text = []) : text = [] := by
  cases text with
  | nil => rfl
  | cons b text =>
    rw [lines] at h
    split at h
    · contradiction
    · split at h <;> contradiction

theorem line_ne_nil (h : line ∈ lines text) : line ≠ [] := by
  induction text generalizing line with
  | nil => exact absurd h List.not_mem_nil
  | cons b text ih =>
    rw [lines] at h
    split at h
    · rcases List.mem_cons.mp h with rfl | h
      · exact List.cons_ne_nil _ _
      · exact ih h
    · split at h
      · rw [List.mem_singleton.mp h]
        exact List.cons_ne_nil _ _
      · next first others heq =>
        rcases List.mem_cons.mp h with rfl | h
        · exact List.cons_ne_nil _ _
        · exact ih (heq ▸ List.mem_cons_of_mem _ h)

/-- A newline stands only at the end of a line. -/
theorem line_front (h : line ∈ lines text) :
    ∃ front, newline ∉ front ∧ (line = front ∨ line = front ++ [newline]) := by
  induction text generalizing line with
  | nil => exact absurd h List.not_mem_nil
  | cons b text ih =>
    rw [lines] at h
    split at h
    · next hb =>
      rcases List.mem_cons.mp h with rfl | h
      · exact ⟨[], List.not_mem_nil, .inr (hb ▸ rfl)⟩
      · exact ih h
    · next hb =>
      split at h
      · obtain rfl := List.mem_singleton.mp h
        exact ⟨[b], by simpa using Ne.symm hb, .inl rfl⟩
      · next first others heq =>
        rcases List.mem_cons.mp h with rfl | h
        · obtain ⟨front, hfront, hfirst⟩ := ih (heq ▸ List.mem_cons_self)
          refine ⟨b :: front, ?_, hfirst.imp (congrArg _) (congrArg _)⟩
          exact fun h => (List.mem_cons.mp h).elim (Ne.symm hb) hfront
        · exact ih (heq ▸ List.mem_cons_of_mem _ h)

theorem lines_flatten (text : Bytes) : (lines text).flatten = text := by
  induction text with
  | nil => rfl
  | cons b text ih =>
    rw [lines]
    split
    · rw [List.flatten_cons, ih]
      rfl
    · split
      · next hnil => rw [eq_nil_of_lines hnil, List.flatten_singleton]
      · next first others hcons =>
        rw [hcons] at ih
        rw [List.flatten_cons, List.cons_append, ← List.flatten_cons, ih]

/-- Only the last line may have no newline. -/
theorem newline_mem_of_dropLast (h : line ∈ (lines text).dropLast) : newline ∈ line := by
  induction text generalizing line with
  | nil => exact absurd h List.not_mem_nil
  | cons b text ih =>
    rw [lines] at h
    split at h
    · next hb =>
      cases hlines : lines text with
      | nil =>
        rw [hlines] at h
        exact absurd h List.not_mem_nil
      | cons first others =>
        rw [hlines, List.dropLast_cons_of_ne_nil (List.cons_ne_nil _ _), ← hlines] at h
        rcases List.mem_cons.mp h with rfl | h
        · rw [hb]
          exact List.mem_cons_self
        · exact ih h
    · split at h
      · exact absurd h List.not_mem_nil
      · next first others hcons =>
        rw [hcons] at ih
        cases others with
        | nil => exact absurd h List.not_mem_nil
        | cons second others =>
          rw [List.dropLast_cons_of_ne_nil (List.cons_ne_nil _ _)] at h ih
          rcases List.mem_cons.mp h with rfl | h
          · exact List.mem_cons_of_mem _ (ih List.mem_cons_self)
          · exact ih (List.mem_cons_of_mem _ h)

theorem cut_of_ne_nil (hline : line ≠ []) (hn : 0 < n) :
    cut n line = line.take n :: cut n (line.drop n) := by
  cases line with
  | nil => exact (hline rfl).elim
  | cons b line =>
    obtain ⟨n, rfl⟩ : ∃ m, n = m + 1 := ⟨n - 1, by omega⟩
    rw [cut, List.take_succ_cons, List.drop_succ_cons, Nat.add_sub_cancel]

theorem cut_of_fits (hline : line ≠ []) (hn : line.length ≤ n) : cut n line = [line] := by
  have hpos := List.length_pos_iff.mpr hline
  rw [cut_of_ne_nil hline (by omega), List.take_of_length_le hn, List.drop_of_length_le hn, cut]

theorem cut_piece_le (hn : 0 < n) {piece : Bytes} (h : piece ∈ cut n line) : piece.length ≤ n := by
  fun_induction cut n line with
  | case1 => exact absurd h List.not_mem_nil
  | case2 b line ih =>
    rcases List.mem_cons.mp h with rfl | h
    · rw [List.length_cons, List.length_take]
      omega
    · exact ih h

theorem cut_length_pos (hline : line ≠ []) : 0 < (cut n line).length := by
  cases line with
  | nil => exact (hline rfl).elim
  | cons b line =>
    rw [cut]
    exact Nat.succ_pos _

theorem cut_length_of_long (hn : 0 < n) (hline : n < line.length) : 1 < (cut n line).length := by
  have hne : line ≠ [] := List.ne_nil_of_length_pos (by omega)
  have hdrop : line.drop n ≠ [] := by
    apply List.ne_nil_of_length_pos
    rw [List.length_drop]
    omega
  have hpos := cut_length_pos (n := n) hdrop
  rw [cut_of_ne_nil hne hn, List.length_cons]
  omega

/-- What `fgets` returns is the front of the first line, and the rest is left. -/
theorem fgets_lines (h : lines text = line :: rest) (hn : 0 < n) :
    (fgets n text).1 = line.take n ∧
      lines (fgets n text).2 = if line.drop n = [] then rest else line.drop n :: rest := by
  induction text generalizing line n with
  | nil => contradiction
  | cons b text ih =>
    obtain ⟨n, rfl⟩ : ∃ m, n = m + 1 := ⟨n - 1, by omega⟩
    rw [lines] at h
    split at h
    · next hb =>
      obtain ⟨rfl, rfl⟩ := List.cons.inj h
      rw [fgets, if_pos hb]
      simp
    · next hb =>
      rw [fgets, if_neg hb]
      split at h
      · next hnil =>
        obtain ⟨rfl, rfl⟩ := List.cons.inj h
        obtain rfl := eq_nil_of_lines hnil
        cases n <;> simp [fgets, lines]
      · next first others hcons =>
        obtain ⟨rfl, rfl⟩ := List.cons.inj h
        have hfirst : first ≠ [] := line_ne_nil (hcons ▸ List.mem_cons_self)
        cases n with
        | zero => simp [fgets, hcons, hfirst]
        | succ n =>
          obtain ⟨hpiece, hrest⟩ := ih hcons (Nat.succ_pos n)
          rw [List.take_succ_cons, List.drop_succ_cons, hpiece]
          exact ⟨rfl, hrest⟩

theorem pieces_fgets (htext : text ≠ []) (hn : 0 < n) :
    pieces n text = (fgets n text).1 :: pieces n (fgets n text).2 := by
  cases hlines : lines text with
  | nil => exact (htext (eq_nil_of_lines hlines)).elim
  | cons line rest =>
    obtain ⟨hpiece, hrest⟩ := fgets_lines hlines hn
    have hline : line ≠ [] := line_ne_nil (hlines ▸ List.mem_cons_self)
    rw [pieces, pieces, hlines, hpiece, hrest, List.flatMap_cons, cut_of_ne_nil hline hn]
    by_cases hdrop : line.drop n = []
    · rw [if_pos hdrop, hdrop, cut]
      rfl
    · rw [if_neg hdrop, List.flatMap_cons]
      rfl

theorem flatMap_cut_of_fits {ls : List Bytes} (h : ∀ line ∈ ls, line ≠ [] ∧ line.length ≤ n) :
    ls.flatMap (cut n) = ls := by
  induction ls with
  | nil => rfl
  | cons line ls ih =>
    obtain ⟨hne, hfits⟩ := h line List.mem_cons_self
    have hrest := ih fun l hl => h l (List.mem_cons_of_mem _ hl)
    rw [List.flatMap_cons, cut_of_fits hne hfits, hrest]
    rfl

theorem getElem?_flatMap_cut {ls : List Bytes} {i : ℕ} (hls : ∀ l ∈ ls, l ≠ [])
    (hline : ls[i]? = some line) (hfits : line.length ≤ n)
    (hbefore : ∀ before ∈ ls.take i, before.length ≤ n) :
    (ls.flatMap (cut n))[i]? = some line := by
  induction ls generalizing i with
  | nil => simp at hline
  | cons l ls ih =>
    have hl := hls l List.mem_cons_self
    have hrest : ∀ l ∈ ls, l ≠ [] := fun l h => hls l (List.mem_cons_of_mem _ h)
    rw [List.flatMap_cons]
    cases i with
    | zero =>
      obtain rfl : l = line := by simpa using hline
      rw [cut_of_fits hl hfits]
      rfl
    | succ i =>
      rw [List.take_succ_cons] at hbefore
      have hfirst := hbefore l List.mem_cons_self
      have hothers : ∀ before ∈ ls.take i, before.length ≤ n :=
        fun l h => hbefore l (List.mem_cons_of_mem _ h)
      rw [cut_of_fits hl hfirst, List.singleton_append, List.getElem?_cons_succ]
      exact ih hrest (by simpa using hline) hothers

theorem getElem?_pieces {i : ℕ} (hline : (lines text)[i]? = some line) (hfits : line.length ≤ n)
    (hbefore : ∀ before ∈ (lines text).take i, before.length ≤ n) :
    (pieces n text)[i]? = some line :=
  getElem?_flatMap_cut (fun _ h => line_ne_nil h) hline hfits hbefore

theorem length_le_flatMap_cut {ls : List Bytes} (h : ∀ line ∈ ls, line ≠ []) :
    ls.length ≤ (ls.flatMap (cut n)).length := by
  induction ls with
  | nil => exact le_rfl
  | cons line ls ih =>
    have hpos := cut_length_pos (n := n) (h line List.mem_cons_self)
    have hrest := ih fun l hl => h l (List.mem_cons_of_mem _ hl)
    rw [List.flatMap_cons, List.length_append, List.length_cons]
    omega

theorem lines_length_le_pieces (n : ℕ) (text : Bytes) :
    (lines text).length ≤ (pieces n text).length :=
  length_le_flatMap_cut fun _ hline => line_ne_nil hline

/-- There are as many pieces as lines exactly if every line fits. -/
theorem pieces_length_iff (hn : 0 < n) :
    (pieces n text).length = (lines text).length ↔ ∀ line ∈ lines text, line.length ≤ n := by
  constructor
  · intro hlen line hline
    by_contra hlong
    obtain ⟨before, after, hsplit⟩ := List.append_of_mem hline
    have hne : ∀ l ∈ lines text, l ≠ [] := fun l hl => line_ne_nil hl
    have hmore := cut_length_of_long hn (Nat.lt_of_not_le hlong)
    rw [pieces, hsplit] at hlen
    rw [hsplit] at hne
    have hbefore : before.length ≤ (before.flatMap (cut n)).length :=
      length_le_flatMap_cut fun l hl => hne l (List.mem_append_left _ hl)
    have hafter : after.length ≤ (after.flatMap (cut n)).length :=
      length_le_flatMap_cut fun l hl => hne l (List.mem_append_right _ (List.mem_cons_of_mem _ hl))
    rw [List.flatMap_append, List.flatMap_cons, List.length_append, List.length_append,
      List.length_append, List.length_cons] at hlen
    omega
  · intro hall
    rw [pieces, flatMap_cut_of_fits fun line hline => ⟨line_ne_nil hline, hall line hline⟩]

end Lines
end Base
