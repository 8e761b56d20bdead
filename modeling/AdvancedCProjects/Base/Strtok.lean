import AdvancedCProjects.Base.Bytes

/-!
# C strings in place

Strings in one memory, at offsets. `strtok` writes a zero over the delimiter
behind the token it finds, so a text of tokens becomes the tokens, each with its
terminator, where they stood.
-/

namespace Base

def stringAt (mem : Bytes) (p : ℕ) : Bytes := cstr (mem.drop p)

/-- `strtok` that goes on at `p`: the memory, the token, and where the next call goes on. -/
def strtok (delim : Byte) (mem : Bytes) (p : ℕ) : Bytes × Option ℕ × ℕ :=
  let text := stringAt mem p
  let start := p + (text.takeWhile (· = delim)).length
  let token := (text.dropWhile (· = delim)).takeWhile (· ≠ delim)
  if token = [] then (mem, none, start)
  else if start + token.length = p + text.length then (mem, some start, start + token.length)
  else (mem.set (start + token.length) 0, some start, start + token.length + 1)

/-- The loop that stores all tokens and a null pointer in an array with `room` free
places; `none` when it writes past the array. -/
def strtokAll (delim : Byte) : ℕ → Bytes → ℕ → Option (Bytes × List ℕ)
  | 0, _, _ => none
  | room + 1, mem, p =>
    match strtok delim mem p with
    | (mem, none, _) => some (mem, [])
    | (mem, some token, p) =>
      (strtokAll delim room mem p).map fun (mem, tokens) => (mem, token :: tokens)

structure IsToken (delim : Byte) (token : Bytes) : Prop where
  nonempty : token ≠ []
  noDelim : delim ∉ token
  noZero : (0 : Byte) ∉ token

/-- Texts, each followed by the byte `x` and by what comes before the next text. -/
def joined (x : Byte) (cells : List (Bytes × Bytes)) : Bytes :=
  cells.flatMap fun cell => cell.1 ++ x :: cell.2

def offsets (p : ℕ) : List (Bytes × Bytes) → List ℕ
  | [] => []
  | cell :: cells => p :: offsets (p + cell.1.length + 1 + cell.2.length) cells

section Strings
variable {mem pre post text skip token tail : Bytes} {delim x : Byte} {p : ℕ}

theorem stringAt_append (pre : Bytes) : stringAt (pre ++ text) pre.length = cstr text := by
  rw [stringAt, List.drop_left]

theorem strtok_end (htext : stringAt mem p = skip) (hskip : ∀ b ∈ skip, b = delim) :
    strtok delim mem p = (mem, none, p + skip.length) := by
  have htake : skip.takeWhile (· = delim) = skip :=
    List.takeWhile_eq_self_iff.mpr fun b hb => decide_eq_true (hskip b hb)
  have hdrop : skip.dropWhile (· = delim) = [] :=
    List.dropWhile_eq_nil_iff.mpr fun b hb => decide_eq_true (hskip b hb)
  simp only [strtok, htext, htake, hdrop, List.takeWhile_nil, if_true]

/-- The call finds the token behind the delimiters and ends it there. -/
theorem strtok_token (htext : stringAt mem p = skip ++ (token ++ tail))
    (hskip : ∀ b ∈ skip, b = delim) (htoken : IsToken delim token)
    (htail : tail = [] ∨ tail.head? = some delim) :
    strtok delim mem p =
      if tail = [] then (mem, some (p + skip.length), p + skip.length + token.length)
      else (mem.set (p + skip.length + token.length) 0, some (p + skip.length),
        p + skip.length + token.length + 1) := by
  obtain ⟨b, rest, rfl⟩ := List.exists_cons_of_ne_nil htoken.nonempty
  have hb : b ≠ delim := fun h => htoken.noDelim (h ▸ List.mem_cons_self)
  have htake : (skip ++ (b :: rest ++ tail)).takeWhile (· = delim) = skip := by
    rw [List.takeWhile_append_of_pos fun b hb => decide_eq_true (hskip b hb)]
    simp [hb]
  have hdrop : (skip ++ (b :: rest ++ tail)).dropWhile (· = delim) = b :: rest ++ tail := by
    rw [List.dropWhile_append_of_pos fun b hb => decide_eq_true (hskip b hb)]
    simp [hb]
  have hword : (b :: rest ++ tail).takeWhile (· ≠ delim) = b :: rest := by
    rw [List.takeWhile_append_of_pos]
    · rcases htail with rfl | htail
      · simp
      · obtain ⟨tail', rfl⟩ := List.head?_eq_some_iff.mp htail
        simp
    · intro c hc
      exact decide_eq_true fun h => htoken.noDelim (h ▸ hc)
  have hlen : p + (skip ++ (b :: rest ++ tail)).length =
      p + skip.length + (b :: rest).length + tail.length := by
    rw [List.length_append, List.length_append]
    omega
  have hlast : p + skip.length + (b :: rest).length =
      p + skip.length + (b :: rest).length + tail.length ↔ tail = [] := by
    rw [← List.length_eq_zero_iff]
    omega
  simp only [strtok, htext, htake, hdrop, hword, hlen, hlast, htoken.nonempty, if_false]

end Strings

section Cells
variable {pre post last : Bytes} {delim : Byte} {cells : List (Bytes × Bytes)}

@[simp] theorem joined_nil (x : Byte) : joined x [] = [] := rfl

@[simp] theorem joined_cons (x : Byte) (cell : Bytes × Bytes) (cells : List (Bytes × Bytes)) :
    joined x (cell :: cells) = cell.1 ++ x :: (cell.2 ++ joined x cells) := by
  simp [joined]

theorem cstr_delim_cons (hd : delim ≠ 0) (text : Bytes) :
    cstr (delim :: text) = delim :: cstr text := by
  unfold cstr
  rw [List.takeWhile_cons, if_pos (decide_eq_true hd)]

theorem noZero_of_delims {skip : Bytes} (hd : delim ≠ 0) (hskip : ∀ b ∈ skip, b = delim) :
    (0 : Byte) ∉ skip := fun h => hd (hskip 0 h).symm

theorem strtok_last {skip : Bytes} (hd : delim ≠ 0) (hskip : ∀ b ∈ skip, b = delim)
    (hlast : IsToken delim last) :
    strtok delim (pre ++ (skip ++ (last ++ 0 :: post))) pre.length =
      (pre ++ (skip ++ (last ++ 0 :: post)), some (pre.length + skip.length),
        pre.length + skip.length + last.length) := by
  have htext : stringAt (pre ++ (skip ++ (last ++ 0 :: post))) pre.length =
      skip ++ (last ++ []) := by
    rw [stringAt_append, cstr_append_of_noZero (noZero_of_delims hd hskip),
      cstr_append hlast.noZero, List.append_nil]
  rw [strtok_token htext hskip hlast (.inl rfl), if_pos rfl]

theorem strtok_next {skip token : Bytes} (hd : delim ≠ 0) (hskip : ∀ b ∈ skip, b = delim)
    (htoken : IsToken delim token) :
    strtok delim (pre ++ (skip ++ (token ++ delim :: post))) pre.length =
      (pre ++ (skip ++ (token ++ 0 :: post)), some (pre.length + skip.length),
        pre.length + skip.length + token.length + 1) := by
  have htext : stringAt (pre ++ (skip ++ (token ++ delim :: post))) pre.length =
      skip ++ (token ++ delim :: cstr post) := by
    rw [stringAt_append, cstr_append_of_noZero (noZero_of_delims hd hskip),
      cstr_append_of_noZero htoken.noZero, cstr_delim_cons hd]
  have hset : (pre ++ (skip ++ (token ++ delim :: post))).set
      (pre.length + skip.length + token.length) 0 = pre ++ (skip ++ (token ++ 0 :: post)) := by
    have hlen : pre.length + skip.length + token.length = (pre ++ (skip ++ token)).length := by
      simp only [List.length_append]
      omega
    rw [hlen]
    simp [← List.append_assoc]
  rw [strtok_token htext hskip htoken (.inr rfl), if_neg (List.cons_ne_nil _ _), hset]

theorem joined_append (x : Byte) (cells more : List (Bytes × Bytes)) :
    joined x (cells ++ more) = joined x cells ++ joined x more := List.flatMap_append

theorem joined_length (x y : Byte) (cells : List (Bytes × Bytes)) :
    (joined x cells).length = (joined y cells).length := by
  induction cells with
  | nil => rfl
  | cons cell cells ih => simp only [joined_cons, List.length_append, List.length_cons, ih]

/-- The loop turns a text of tokens into the tokens. -/
theorem strtokAll_joined (pre skip post : Bytes) {room : ℕ} (hd : delim ≠ 0)
    (hcells : ∀ cell ∈ cells, IsToken delim cell.1 ∧ ∀ b ∈ cell.2, b = delim)
    (hlast : IsToken delim last) (hskip : ∀ b ∈ skip, b = delim)
    (hroom : cells.length + 1 < room) :
    strtokAll delim room (pre ++ (skip ++ (joined delim cells ++ (last ++ 0 :: post)))) pre.length =
      some (pre ++ (skip ++ (joined 0 (cells ++ [(last, [])]) ++ post)),
        offsets (pre.length + skip.length) (cells ++ [(last, [])])) := by
  induction cells generalizing pre skip room with
  | nil =>
    obtain ⟨room, rfl⟩ : ∃ r, room = r + 2 := ⟨room - 2, by simp at hroom; omega⟩
    have hend : strtok delim (pre ++ (skip ++ (last ++ 0 :: post)))
        (pre.length + skip.length + last.length) =
        (pre ++ (skip ++ (last ++ 0 :: post)), none, pre.length + skip.length + last.length) := by
      have htext : stringAt (pre ++ (skip ++ last) ++ 0 :: post) (pre ++ (skip ++ last)).length =
          cstr (0 :: post) := stringAt_append _
      simp only [List.append_assoc, List.length_append, ← Nat.add_assoc] at htext
      exact strtok_end htext (by simp [cstr])
    rw [joined_nil, List.nil_append, strtokAll, strtok_last hd hskip hlast]
    simp only [strtokAll, hend, Option.map_some, List.nil_append, joined_cons, joined_nil, offsets,
      List.append_assoc, List.cons_append]
  | cons cell cells ih =>
    obtain ⟨token, delims⟩ := cell
    obtain ⟨room, rfl⟩ : ∃ r, room = r + 1 := ⟨room - 1, by omega⟩
    obtain ⟨htoken, hdelims⟩ := hcells (token, delims) List.mem_cons_self
    have hnext := @ih (pre ++ (skip ++ (token ++ [0]))) delims room
      (fun cell hcell => hcells cell (List.mem_cons_of_mem _ hcell)) hdelims
      (by simp only [List.length_cons] at hroom; omega)
    simp only [List.append_assoc, List.length_append, List.length_singleton,
      ← Nat.add_assoc, List.singleton_append] at hnext
    have hmem : pre ++ (skip ++ (joined delim ((token, delims) :: cells) ++ (last ++ 0 :: post))) =
        pre ++ (skip ++ (token ++ delim :: (delims ++ (joined delim cells ++
          (last ++ 0 :: post))))) := by
      simp only [joined_cons, List.append_assoc, List.cons_append]
    rw [hmem, strtokAll, strtok_next hd hskip htoken]
    simp only [hnext, Option.map_some, List.cons_append, joined_cons, offsets, List.append_assoc]

theorem strings_joined (pre post : Bytes) (h : ∀ cell ∈ cells, (0 : Byte) ∉ cell.1) :
    (offsets pre.length cells).map (stringAt (pre ++ (joined 0 cells ++ post))) =
      cells.map Prod.fst := by
  induction cells generalizing pre with
  | nil => rfl
  | cons cell cells ih =>
    have hrest := @ih (pre ++ (cell.1 ++ 0 :: cell.2))
      fun c hc => h c (List.mem_cons_of_mem _ hc)
    have hlen : (pre ++ (cell.1 ++ 0 :: cell.2)).length =
        pre.length + cell.1.length + 1 + cell.2.length := by
      simp only [List.length_append, List.length_cons]
      omega
    simp only [hlen, List.append_assoc, List.cons_append] at hrest
    rw [offsets, List.map_cons, List.map_cons, stringAt_append, joined_cons]
    simp only [List.append_assoc, List.cons_append, cstr_append (h cell List.mem_cons_self), hrest]

end Cells

/-! ### What the calls leave alone -/

section Writes
variable {mem mem' : Bytes} {tokens : List ℕ} {delim x : Byte} {i p room : ℕ}

theorem cstr_set_take (mem : Bytes) (i : ℕ) : cstr (mem.set i 0) = (cstr mem).take i := by
  induction mem generalizing i with
  | nil => exact List.take_nil.symm
  | cons b mem ih =>
    cases i with
    | zero => rfl
    | succ i =>
      rw [List.set_cons_succ]
      unfold cstr at ih ⊢
      rw [List.takeWhile_cons, List.takeWhile_cons]
      split
      · rw [ih, List.take_succ_cons]
      · rfl

theorem cstr_set_zero (mem : Bytes) (i : ℕ) : cstr (mem.set i 0) <+: cstr mem := by
  rw [cstr_set_take]
  exact List.take_prefix i _

theorem stringAt_set_zero (mem : Bytes) (i p : ℕ) : stringAt (mem.set i 0) p =
    if p ≤ i then (stringAt mem p).take (i - p) else stringAt mem p := by
  unfold stringAt
  rw [List.drop_set]
  by_cases hp : p ≤ i
  · rw [if_neg (by omega), if_pos hp, cstr_set_take]
  · rw [if_pos (by omega), if_neg hp]

/-- A string that ends within the memory. -/
theorem stringAt_split (h : p + (stringAt mem p).length < mem.length) :
    ∃ pre post, pre.length = p ∧ mem = pre ++ (stringAt mem p ++ 0 :: post) := by
  obtain ⟨tail, htail, hnone⟩ := exists_behind_cstr (mem.drop p)
  have hdrop : mem.drop p = stringAt mem p ++ tail := htail
  have hlength := congrArg List.length hdrop
  rw [List.length_drop, List.length_append] at hlength
  refine ⟨mem.take p, tail.tail, by rw [List.length_take]; omega, ?_⟩
  cases tail with
  | nil =>
    rw [List.length_nil] at hlength
    omega
  | cons b tail =>
    have hb : b = 0 := by
      by_contra hne
      rw [cstr, List.takeWhile_cons, if_pos (decide_eq_true hne)] at hnone
      contradiction
    subst hb
    rw [List.tail_cons, ← hdrop, List.take_append_drop]

theorem cstr_set_behind (h : (cstr mem).length < i) (x : Byte) : cstr (mem.set i x) = cstr mem := by
  induction mem generalizing i with
  | nil => rfl
  | cons b mem ih =>
    obtain ⟨i, rfl⟩ : ∃ k, i = k + 1 := ⟨i - 1, by omega⟩
    rw [List.set_cons_succ]
    unfold cstr at ih h ⊢
    rw [List.takeWhile_cons, List.takeWhile_cons]
    split
    · next hb =>
      rw [List.takeWhile_cons, if_pos hb, List.length_cons] at h
      rw [ih (by omega)]
    · rfl

theorem strtok_writes (delim : Byte) (mem : Bytes) (p : ℕ) :
    (strtok delim mem p).1 = mem ∨ ∃ i, p ≤ i ∧ (strtok delim mem p).1 = mem.set i 0 := by
  simp only [strtok]
  split
  · exact .inl rfl
  · split
    · exact .inl rfl
    · exact .inr ⟨_, by omega, rfl⟩

theorem strtok_some {token q : ℕ} (h : strtok delim mem p = (mem', some token, q)) :
    token = p + ((stringAt mem p).takeWhile (· = delim)).length ∧ token < q := by
  simp only [strtok] at h
  split at h
  · simp at h
  · next hne =>
    have hpos := List.length_pos_iff.mpr hne
    split at h
    · simp only [Prod.mk.injEq, Option.some.injEq] at h
      omega
    · simp only [Prod.mk.injEq, Option.some.injEq] at h
      omega

/-- What no zero from `p` on spoils is kept. -/
theorem strtokAll_keeps {Q : Bytes → Prop} (hQ : ∀ mem i, p ≤ i → Q mem → Q (mem.set i 0))
    (h : strtokAll delim room mem p = some (mem', tokens)) (hmem : Q mem) : Q mem' := by
  induction room generalizing mem p tokens with
  | zero => contradiction
  | succ room ih =>
    have hnext : Q (strtok delim mem p).1 := by
      rcases strtok_writes delim mem p with hw | ⟨i, hi, hw⟩
      · exact hw.symm ▸ hmem
      · exact hw.symm ▸ hQ mem i hi hmem
    rw [strtokAll] at h
    generalize hstep : strtok delim mem p = result at h hnext
    obtain ⟨mem₁, token, q⟩ := result
    cases token with
    | none =>
      obtain ⟨rfl, rfl⟩ := Prod.mk.inj (Option.some.inj h)
      exact hnext
    | some token =>
      obtain ⟨htoken, hq⟩ := strtok_some hstep
      obtain ⟨⟨mem₂, rest⟩, hrest, heq⟩ := Option.map_eq_some_iff.mp h
      obtain ⟨rfl, -⟩ := Prod.mk.inj heq
      exact ih (fun mem i hi => hQ mem i (by omega)) hrest hnext

theorem strtokAll_few (h : strtokAll delim room mem p = some (mem', tokens)) :
    tokens.length < room := by
  induction room generalizing mem p tokens with
  | zero => contradiction
  | succ room ih =>
    rw [strtokAll] at h
    generalize strtok delim mem p = result at h
    obtain ⟨mem₁, token, q⟩ := result
    cases token with
    | none =>
      obtain ⟨rfl, rfl⟩ := Prod.mk.inj (Option.some.inj h)
      exact Nat.succ_pos room
    | some token =>
      obtain ⟨⟨mem₂, rest⟩, hrest, heq⟩ := Option.map_eq_some_iff.mp h
      obtain ⟨rfl, rfl⟩ := Prod.mk.inj heq
      exact Nat.succ_lt_succ (ih hrest)

theorem strtokAll_ge (h : strtokAll delim room mem p = some (mem', tokens)) :
    ∀ token ∈ tokens, p + ((stringAt mem p).takeWhile (· = delim)).length ≤ token := by
  induction room generalizing mem p tokens with
  | zero => contradiction
  | succ room ih =>
    rw [strtokAll] at h
    generalize hstep : strtok delim mem p = result at h
    obtain ⟨mem₁, first, q⟩ := result
    cases first with
    | none =>
      obtain ⟨rfl, rfl⟩ := Prod.mk.inj (Option.some.inj h)
      exact fun _ hmem => absurd hmem List.not_mem_nil
    | some first =>
      obtain ⟨hfirst, hq⟩ := strtok_some hstep
      obtain ⟨⟨mem₂, rest⟩, hrest, heq⟩ := Option.map_eq_some_iff.mp h
      obtain ⟨rfl, rfl⟩ := Prod.mk.inj heq
      intro token hmem
      rcases List.mem_cons.mp hmem with rfl | hmem
      · exact hfirst.ge
      · have := ih hrest token hmem
        omega

end Writes

/-! ### What lies behind the memory of a string does not matter -/

/-- A string that ends in the first part of the memory. -/
theorem stringAt_front {front text : Bytes} {p : ℕ}
    (h : p + (stringAt (front ++ text) p).length < front.length) (text' : Bytes) :
    stringAt (front ++ text') p = stringAt (front ++ text) p := by
  have hdrop : ∀ t, (front ++ t).drop p = front.drop p ++ t := fun t =>
    List.drop_append_of_le_length (by omega)
  unfold stringAt at h ⊢
  rw [hdrop] at h
  rw [hdrop, hdrop]
  have hlength := List.length_drop (i := p) (l := front)
  by_cases hzero : (0 : Byte) ∈ front.drop p
  · obtain ⟨before, behind, hsplit, hnone⟩ := List.eq_append_cons_of_mem hzero
    rw [hsplit, List.append_assoc, List.append_assoc, List.cons_append, List.cons_append,
      cstr_append hnone, cstr_append hnone]
  · rw [cstr_append_of_noZero hzero, List.length_append] at h
    omega

theorem stringAt_behind {front front' : Bytes} {p : ℕ} (hlength : front'.length = front.length)
    (hp : front.length ≤ p) (text : Bytes) :
    stringAt (front' ++ text) p = stringAt (front ++ text) p := by
  unfold stringAt
  rw [List.drop_append, List.drop_append, List.drop_of_length_le hp,
    List.drop_of_length_le (hlength.trans_le hp), hlength]

/-- The last byte ends the last string. -/
def Ends (mem : Bytes) : Prop := ∃ front, mem = front ++ [0]

section Frame
variable {mem mem' extra : Bytes} {tokens : List ℕ} {delim : Byte} {i p room : ℕ}

theorem cstr_append_zero (s t : Bytes) : cstr (s ++ 0 :: t) = cstr s := by
  induction s with
  | nil => rfl
  | cons b s ih =>
    unfold cstr at ih ⊢
    rw [List.cons_append, List.takeWhile_cons, List.takeWhile_cons, ih]

theorem Ends.set (h : Ends mem) (i : ℕ) : Ends (mem.set i 0) := by
  obtain ⟨front, rfl⟩ := h
  rcases Nat.lt_or_ge i front.length with hlt | hge
  · exact ⟨front.set i 0, List.set_append_left _ _ hlt⟩
  · refine ⟨front, ?_⟩
    rw [List.set_append_right _ _ hge]
    cases i - front.length <;> rfl

theorem Ends.stringAt (h : Ends mem) (hp : p < mem.length) (extra : Bytes) :
    stringAt (mem ++ extra) p = stringAt mem p ∧ p + (Base.stringAt mem p).length < mem.length := by
  obtain ⟨front, rfl⟩ := h
  rw [List.length_append, List.length_singleton] at hp ⊢
  have hle : p ≤ front.length := by omega
  have hstring : Base.stringAt (front ++ [0]) p = cstr (front.drop p) := by
    rw [Base.stringAt, List.drop_append_of_le_length hle, cstr_append_zero]
  have hlen : (cstr (front.drop p)).length ≤ front.length - p := by
    rw [← List.length_drop]
    exact (List.takeWhile_prefix _).length_le
  refine ⟨?_, by rw [hstring]; omega⟩
  rw [hstring, Base.stringAt, List.append_assoc, List.drop_append_of_le_length hle]
  exact cstr_append_zero _ _

theorem Ends.strtok (h : Ends mem) (hp : p < mem.length) (delim : Byte) :
    Ends (strtok delim mem p).1 ∧ (Base.strtok delim mem p).1.length = mem.length ∧
      (∀ token ∈ (Base.strtok delim mem p).2.1, token < mem.length) ∧
      (Base.strtok delim mem p).2.2 < mem.length ∧
      ∀ extra, Base.strtok delim (mem ++ extra) p =
        ((Base.strtok delim mem p).1 ++ extra, (Base.strtok delim mem p).2) := by
  have hlen := (h.stringAt hp []).2
  have hsplit : (Base.stringAt mem p).length =
      ((Base.stringAt mem p).takeWhile (· = delim)).length +
        ((Base.stringAt mem p).dropWhile (· = delim)).length := by
    rw [← List.length_append, List.takeWhile_append_dropWhile]
  have htoken := (List.takeWhile_prefix (l := (Base.stringAt mem p).dropWhile (· = delim))
    (fun b => decide (b ≠ delim))).length_le
  simp only [Base.strtok, (h.stringAt hp _).1]
  split
  · exact ⟨h, rfl, fun _ ht => absurd ht (by simp), by dsimp only; omega, fun _ => rfl⟩
  · split
    · next hne hstop =>
      refine ⟨h, rfl, ?_, by dsimp only; omega, fun _ => rfl⟩
      intro token ht
      obtain rfl := Option.mem_some.mp ht
      omega
    · next hne hstop =>
      refine ⟨h.set _, List.length_set .., ?_, by dsimp only; omega, fun extra => ?_⟩
      · intro token ht
        obtain rfl := Option.mem_some.mp ht
        omega
      · rw [List.set_append_left _ _ (by omega)]

theorem Ends.strtokAll (h : Ends mem) (hp : p < mem.length) (delim : Byte) (room : ℕ) :
    (∀ mem' tokens, strtokAll delim room mem p = some (mem', tokens) →
      Ends mem' ∧ mem'.length = mem.length ∧ ∀ token ∈ tokens, token < mem.length) ∧
    ∀ extra, Base.strtokAll delim room (mem ++ extra) p =
      (Base.strtokAll delim room mem p).map fun result => (result.1 ++ extra, result.2) := by
  induction room generalizing mem p with
  | zero => exact ⟨fun _ _ h => absurd h (by simp [Base.strtokAll]), fun _ => rfl⟩
  | succ room ih =>
    obtain ⟨hends, hlength, htoken, hnext, hframe⟩ := h.strtok hp delim
    simp only [Base.strtokAll, hframe]
    generalize Base.strtok delim mem p = result at *
    obtain ⟨mem₁, token, q⟩ := result
    cases token with
    | none =>
      refine ⟨fun mem' tokens heq => ?_, fun _ => rfl⟩
      obtain ⟨rfl, rfl⟩ := Prod.mk.inj (Option.some.inj heq)
      exact ⟨hends, hlength, fun _ ht => absurd ht List.not_mem_nil⟩
    | some token =>
      obtain ⟨hrest, hframe'⟩ := ih hends (hlength ▸ hnext)
      refine ⟨fun mem' tokens heq => ?_, fun extra => ?_⟩
      · obtain ⟨⟨mem₂, rest⟩, hsome, heq⟩ := Option.map_eq_some_iff.mp heq
        obtain ⟨rfl, rfl⟩ := Prod.mk.inj heq
        obtain ⟨hends', hlength', hrest'⟩ := hrest _ _ hsome
        refine ⟨hends', hlength'.trans hlength, fun t ht => ?_⟩
        rcases List.mem_cons.mp ht with rfl | ht
        · exact htoken t rfl
        · exact hlength ▸ hrest' t ht
      · simp only [hframe']
        cases Base.strtokAll delim room mem₁ q <;> rfl

end Frame
end Base
