import AdvancedCProjects.Base.Strtok

/-!
# The pieces of a text

What `strtok` makes of a text: the pieces between the delimiters, at the places
where they stand. In memory a zero follows each of them, and only delimiters and
zeros stand between one piece and the next.
-/

namespace Base

/-- The pieces of `text`, which stands at `p`, with their places. -/
def piecesAt (delim : Byte) (p : ℕ) : Bytes → List (ℕ × Bytes)
  | [] => []
  | b :: text =>
    if b = delim then piecesAt delim (p + 1) text
    else match piecesAt delim (p + 1) text with
      | [] => [(p, [b])]
      | (q, piece) :: rest =>
        if q = p + 1 then (p, b :: piece) :: rest else (p, [b]) :: (q, piece) :: rest

/-- The first text of each cell with its place, the cells standing at `p`. -/
def placed (p : ℕ) : List (Bytes × Bytes) → List (ℕ × Bytes)
  | [] => []
  | cell :: cells => (p, cell.1) :: placed (p + cell.1.length + 1 + cell.2.length) cells

/-- The memory of `text` after the calls of `strtok`, as what stands before the first piece and
the pieces with what follows each of them. -/
structure Splits (delim : Byte) (text skip : Bytes) (cells : List (Bytes × Bytes)) : Prop where
  front : ∀ b ∈ skip, b = delim ∨ b = 0
  tokens : ∀ cell ∈ cells, IsToken delim cell.1 ∧ ∀ b ∈ cell.2, b = delim ∨ b = 0
  length : (skip ++ joined 0 cells).length = text.length + 1
  piecesAt : ∀ p, piecesAt delim p text = placed (p + skip.length) cells
  split : ∀ pre post room, strtokAll delim room (pre ++ (text ++ 0 :: post)) pre.length =
    if cells.length < room then some (pre ++ (skip ++ (joined 0 cells ++ post)),
      offsets (pre.length + skip.length) cells) else none

section Pieces
variable {delim : Byte} {text skip token rest : Bytes} {cells : List (Bytes × Bytes)} {p : ℕ}

theorem piecesAt_ge (delim : Byte) (p : ℕ) (text : Bytes) :
    ∀ piece ∈ piecesAt delim p text, p ≤ piece.1 := by
  induction text generalizing p with
  | nil => exact fun _ h => absurd h List.not_mem_nil
  | cons b text ih =>
    have hrest := ih (p + 1)
    unfold piecesAt
    split
    · exact fun piece h => (Nat.le_succ p).trans (hrest piece h)
    · split
      · exact List.forall_mem_singleton.mpr le_rfl
      · next q piece rest heq =>
        rw [heq, List.forall_mem_cons] at hrest
        split
        · exact List.forall_mem_cons.mpr
            ⟨le_rfl, fun x hx => (Nat.le_succ p).trans (hrest.2 x hx)⟩
        · refine List.forall_mem_cons.mpr ⟨le_rfl, List.forall_mem_cons.mpr ⟨?_, fun x hx => ?_⟩⟩
          · exact (Nat.le_succ p).trans hrest.1
          · exact (Nat.le_succ p).trans (hrest.2 x hx)

theorem piecesAt_skip (hskip : ∀ b ∈ skip, b = delim) (p : ℕ) (text : Bytes) :
    piecesAt delim p (skip ++ text) = piecesAt delim (p + skip.length) text := by
  induction skip generalizing p with
  | nil => rfl
  | cons b skip ih =>
    have hb := hskip b List.mem_cons_self
    have hlength : p + (b :: skip).length = p + 1 + skip.length := by
      rw [List.length_cons]
      omega
    rw [List.cons_append, piecesAt, if_pos hb, ih fun c hc => hskip c (List.mem_cons_of_mem _ hc),
      hlength]

/-- A token that the text ends with, or that a delimiter follows. -/
theorem piecesAt_token (htoken : token ≠ []) (hdelim : delim ∉ token)
    (hrest : rest = [] ∨ rest.head? = some delim) (p : ℕ) :
    piecesAt delim p (token ++ rest) = (p, token) :: piecesAt delim (p + token.length) rest := by
  induction token generalizing p with
  | nil => contradiction
  | cons b token ih =>
    have hb : b ≠ delim := fun h => hdelim (h ▸ List.mem_cons_self)
    rw [List.cons_append, piecesAt, if_neg hb]
    by_cases hlast : token = []
    · subst hlast
      have hge := piecesAt_ge delim (p + 1) rest
      have hstep : ∀ piece ∈ piecesAt delim (p + 1) rest, piece.1 ≠ p + 1 := by
        rcases hrest with rfl | hhead
        · exact fun _ h => absurd h List.not_mem_nil
        · obtain ⟨tail, rfl⟩ := List.head?_eq_some_iff.mp hhead
          intro piece hpiece heq
          rw [piecesAt, if_pos rfl] at hpiece
          have := piecesAt_ge delim (p + 1 + 1) tail piece hpiece
          omega
      rw [List.nil_append, List.length_singleton]
      cases hpieces : piecesAt delim (p + 1) rest with
      | nil => rfl
      | cons first others =>
        obtain ⟨q, piece⟩ := first
        have hq : q ≠ p + 1 := hstep (q, piece) (hpieces ▸ List.mem_cons_self)
        dsimp only
        rw [if_neg hq]
    · rw [ih hlast (fun h => hdelim (List.mem_cons_of_mem _ h))]
      dsimp only
      have hlength : p + (b :: token).length = p + 1 + token.length := by
        rw [List.length_cons]
        omega
      rw [if_pos rfl, hlength]

theorem placed_offsets (p : ℕ) (cells : List (Bytes × Bytes)) :
    (placed p cells).map Prod.fst = offsets p cells := by
  induction cells generalizing p with
  | nil => rfl
  | cons cell cells ih => rw [placed, List.map_cons, ih, offsets]

theorem placed_length (p : ℕ) (cells : List (Bytes × Bytes)) :
    (placed p cells).length = cells.length := by
  induction cells generalizing p with
  | nil => rfl
  | cons cell cells ih => rw [placed, List.length_cons, ih, List.length_cons]

theorem Splits.end (hd : delim ≠ 0) (htext : ∀ b ∈ text, b = delim) :
    Splits delim text (text ++ [0]) [] where
  front b hb := by
    rcases List.mem_append.mp hb with hb | hb
    · exact .inl (htext b hb)
    · exact .inr (List.mem_singleton.mp hb)
  tokens _ h := absurd h List.not_mem_nil
  length := by rw [joined_nil, List.append_nil, List.length_append, List.length_singleton]
  piecesAt p := by
    have hpieces := piecesAt_skip htext p []
    rwa [List.append_nil] at hpieces
  split pre post room := by
    have hstring : stringAt (pre ++ (text ++ 0 :: post)) pre.length = text := by
      rw [stringAt_append, cstr_append (noZero_of_delims hd htext)]
    have hmem : pre ++ (text ++ [0] ++ (joined 0 [] ++ post)) = pre ++ (text ++ 0 :: post) := by
      simp
    cases room with
    | zero => rfl
    | succ room =>
      rw [strtokAll, strtok_end hstring htext, hmem]
      rfl

theorem Splits.last (hd : delim ≠ 0) (hskip : ∀ b ∈ skip, b = delim)
    (htoken : IsToken delim token) : Splits delim (skip ++ token) skip [(token, [])] where
  front b hb := .inl (hskip b hb)
  tokens := List.forall_mem_singleton.mpr ⟨htoken, fun _ h => absurd h List.not_mem_nil⟩
  length := by
    simp only [joined_cons, joined_nil, List.length_append, List.length_cons, List.length_nil]
    omega
  piecesAt p := by
    have hpieces := piecesAt_token htoken.nonempty htoken.noDelim (.inl rfl) (p + skip.length)
    rw [List.append_nil] at hpieces
    rw [piecesAt_skip hskip, hpieces]
    rfl
  split pre post room := by
    have hmem : pre ++ (skip ++ (joined 0 [(token, [])] ++ post)) =
        pre ++ (skip ++ (token ++ 0 :: post)) := by simp
    have hend : strtok delim (pre ++ (skip ++ (token ++ 0 :: post)))
        (pre.length + skip.length + token.length) =
        (pre ++ (skip ++ (token ++ 0 :: post)), none, pre.length + skip.length + token.length) := by
      have hstring : stringAt (pre ++ (skip ++ token) ++ 0 :: post)
          (pre ++ (skip ++ token)).length = [] := stringAt_append _
      simp only [List.append_assoc, List.length_append, ← Nat.add_assoc] at hstring
      exact strtok_end hstring fun _ h => absurd h List.not_mem_nil
    rw [List.append_assoc, hmem]
    cases room with
    | zero => rfl
    | succ room =>
      rw [strtokAll, strtok_last hd hskip htoken]
      dsimp only
      cases room with
      | zero => rfl
      | succ room =>
        rw [strtokAll, hend, if_pos (by rw [List.length_singleton]; omega)]
        rfl

theorem Splits.next {skip' : Bytes} (hd : delim ≠ 0) (hskip : ∀ b ∈ skip, b = delim)
    (htoken : IsToken delim token) (h : Splits delim rest skip' cells) :
    Splits delim (skip ++ (token ++ delim :: rest)) skip ((token, skip') :: cells) where
  front b hb := .inl (hskip b hb)
  tokens := List.forall_mem_cons.mpr ⟨⟨htoken, h.front⟩, h.tokens⟩
  length := by
    have hlength := h.length
    simp only [joined_cons, List.length_append, List.length_cons] at hlength ⊢
    omega
  piecesAt p := by
    have hpieces := h.piecesAt (p + skip.length + token.length + 1)
    rw [piecesAt_skip hskip, piecesAt_token htoken.nonempty htoken.noDelim (.inr rfl),
      Base.piecesAt, if_pos rfl, hpieces]
    rfl
  split pre post room := by
    have hrest := h.split (pre ++ (skip ++ (token ++ [0]))) post
    simp only [List.append_assoc, List.length_append, List.length_singleton, ← Nat.add_assoc,
      List.singleton_append] at hrest
    have hmem : pre ++ (skip ++ (joined 0 ((token, skip') :: cells) ++ post)) =
        pre ++ (skip ++ (token ++ 0 :: (skip' ++ (joined 0 cells ++ post)))) := by simp
    rw [hmem, List.append_assoc, List.append_assoc, List.cons_append]
    cases room with
    | zero => rfl
    | succ room =>
      rw [strtokAll, strtok_next hd hskip htoken]
      dsimp only
      rw [hrest, List.length_cons]
      by_cases hroom : cells.length < room
      · rw [if_pos hroom, if_pos (by omega), Option.map_some, offsets]
      · rw [if_neg hroom, if_neg (by omega), Option.map_none]

theorem exists_splits (hd : delim ≠ 0) (text : Bytes) (hzero : (0 : Byte) ∉ text) :
    ∃ skip cells, Splits delim text skip cells := by
  induction hlength : text.length using Nat.strong_induction_on generalizing text with
  | _ length ih =>
    obtain ⟨skip, hskip⟩ : ∃ skip, text.takeWhile (· = delim) = skip := ⟨_, rfl⟩
    obtain ⟨behind, hbehind⟩ : ∃ behind, text.dropWhile (· = delim) = behind := ⟨_, rfl⟩
    have htext : text = skip ++ behind := by
      rw [← hskip, ← hbehind, List.takeWhile_append_dropWhile]
    have hdelims : ∀ b ∈ skip, b = delim := by
      intro b hb
      have hdelim := List.mem_takeWhile_imp (hskip ▸ hb)
      exact of_decide_eq_true hdelim
    by_cases hempty : behind = []
    · rw [hempty, List.append_nil] at htext
      exact ⟨_, _, htext ▸ Splits.end hd hdelims⟩
    · obtain ⟨token, htoken⟩ : ∃ token, behind.takeWhile (· ≠ delim) = token := ⟨_, rfl⟩
      obtain ⟨tail, htail⟩ : ∃ tail, behind.dropWhile (· ≠ delim) = tail := ⟨_, rfl⟩
      have hsplit : behind = token ++ tail := by
        rw [← htoken, ← htail, List.takeWhile_append_dropWhile]
      have hisToken : IsToken delim token := by
        refine ⟨?_, fun hmem => ?_, fun hmem => hzero ?_⟩
        · obtain ⟨b, rest, rfl⟩ := List.exists_cons_of_ne_nil hempty
          have hhead := List.head?_dropWhile_not (fun b => decide (b = delim)) text
          rw [hbehind] at hhead
          have hb : b ≠ delim := by simpa using hhead
          rw [← htoken, List.takeWhile_cons, if_pos (decide_eq_true hb)]
          exact List.cons_ne_nil _ _
        · have hne := List.mem_takeWhile_imp (htoken ▸ hmem)
          simp at hne
        · rw [htext, hsplit]
          exact List.mem_append_right _ (List.mem_append_left _ hmem)
      have hhead := List.head?_dropWhile_not (fun b => decide (b ≠ delim)) behind
      rw [htail] at hhead
      rw [htext, hsplit]
      cases tail with
      | nil =>
        rw [List.append_nil]
        exact ⟨_, _, Splits.last hd hdelims hisToken⟩
      | cons b rest =>
        obtain rfl : b = delim := by simpa using hhead
        have hshort : rest.length < length := by
          rw [← hlength, htext, hsplit, List.length_append, List.length_append, List.length_cons]
          omega
        have hnone : (0 : Byte) ∉ rest := by
          intro hmem
          apply hzero
          rw [htext, hsplit]
          exact List.mem_append_right _ (List.mem_append_right _ (List.mem_cons_of_mem _ hmem))
        obtain ⟨skip', cells, hrest⟩ := ih rest.length hshort rest hnone rfl
        exact ⟨_, _, Splits.next hd hdelims hisToken hrest⟩

end Pieces
end Base
