import AdvancedCProjects.Terminal.Parse
import Mathlib.Data.List.DropRight

/-!
# White space around a string (terminal.c:29-45)

`trim` on strings of any length. Its two scans are not bounded by each other: the
one from the end stops at a visible character, or leaves the string.
-/

namespace AdvancedCProjects.Terminal
open Base

/-- `i++` for an `int`. -/
def increment (i : ℕ) : Option ℕ := if i + 1 < 2 ^ 31 then some (i + 1) else none

/-- `while (isspace(str[start])) start++`, with what stands from `start` on. -/
def firstNonSpace : Bytes → ℕ → Option ℕ
  | [], _ => none
  | b :: rest, start =>
    if isSpace b then (increment start).bind (firstNonSpace rest) else some start

/-- `count` rounds of the loop `str[i - start] = str[i]`. -/
def shiftString (start : ℕ) : ℕ → ℕ → Bytes → Option Bytes
  | 0, _, str => some str
  | count + 1, i, str =>
    str[i]?.bind fun b => (increment i).bind fun next =>
      shiftString start count next (str.set (i - start) b)

/-- `trim` of the string `s`, up to its terminator; `none` when it reads or writes
anything else, or counts past the range of `int`. `stop` is `end + 1`. -/
def trimString (s : Bytes) : Option Bytes :=
  (firstNonSpace (s ++ [0]) 0).bind fun start =>
    (lastNonSpace (s ++ [0]) (wrapInt 4 (s.length - 1) + 1).toNat).bind fun stop =>
      if stop < start then none
      else (shiftString start (stop - start) start (s ++ [0])).map fun str =>
        str.set (stop - start) 0

/-- A string without the white space around it. -/
def strip (s : Bytes) : Bytes := (s.rdropWhile isSpace).dropWhile isSpace

/-- `trim` stays within the string and leaves it stripped. -/
def Trims (s : Bytes) : Prop := ∃ str, trimString s = some str ∧ cstr str = strip s

section Scans
variable {s str before rest : Bytes} {b : Byte} {start stop count i k : ℕ}

theorem isSpace_zero : isSpace 0 = false := by decide

theorem firstNonSpace_append (hb : isSpace b = false) (hbefore : ∀ c ∈ before, isSpace c = true)
    (hk : k < 2 ^ 31) : firstNonSpace (before ++ b :: rest) k =
      if k + before.length < 2 ^ 31 then some (k + before.length) else none := by
  induction before generalizing k with
  | nil => simpa [firstNonSpace, hb] using hk
  | cons c before ih =>
    have hc := hbefore c List.mem_cons_self
    rw [List.cons_append, firstNonSpace, if_pos hc, List.length_cons, increment]
    by_cases hnext : k + 1 < 2 ^ 31
    · have hrest := ih (fun d hd => hbefore d (List.mem_cons_of_mem _ hd)) hnext
      have hsum : k + (before.length + 1) = k + 1 + before.length := by omega
      rw [if_pos hnext, Option.bind_some, hrest, hsum]
    · rw [if_neg hnext, if_neg (by omega), Option.bind_none]

/-- The scan from the front stops at the terminator at the latest. -/
theorem firstNonSpace_string (s : Bytes) : firstNonSpace (s ++ [0]) 0 =
    if (s.takeWhile isSpace).length < 2 ^ 31 then some (s.takeWhile isSpace).length else none := by
  have hspaces : ∀ c ∈ s.takeWhile isSpace, isSpace c = true := fun c hc =>
    List.mem_takeWhile_imp hc
  obtain ⟨b, rest, hb, hsplit⟩ : ∃ b rest, isSpace b = false ∧
      s ++ [0] = s.takeWhile isSpace ++ b :: rest := by
    cases hdrop : s.dropWhile isSpace with
    | nil =>
      refine ⟨0, [], isSpace_zero, ?_⟩
      have hwhole := List.takeWhile_append_dropWhile (p := isSpace) (l := s)
      rw [hdrop, List.append_nil] at hwhole
      rw [hwhole]
    | cons b rest =>
      have hhead := List.head?_dropWhile_not isSpace s
      rw [hdrop] at hhead
      refine ⟨b, rest ++ [0], Bool.eq_false_iff.mpr (by simpa using hhead), ?_⟩
      have hwhole := List.takeWhile_append_dropWhile (p := isSpace) (l := s)
      rw [hdrop] at hwhole
      rw [← List.cons_append, ← List.append_assoc, hwhole]
  rw [hsplit, firstNonSpace_append hb hspaces (by omega), Nat.zero_add]

theorem shiftString_eq (hstart : start ≤ i) (hlength : i + count ≤ str.length) :
    shiftString start count i str = if count = 0 ∨ i + count < 2 ^ 31 then
      some (shiftDown start count (i - start) str) else none := by
  induction count generalizing i str with
  | zero => simp [shiftString, shiftDown]
  | succ count ih =>
    have hread : str[i]? = some (str.getD i 0) := by
      rw [List.getD_eq_getElem _ _ (by omega), List.getElem?_eq_getElem (by omega)]
    have hnext : i - start + 1 = i + 1 - start := by omega
    have hindex : i - start + start = i := by omega
    rw [shiftString, hread, Option.bind_some, increment, shiftDown, hindex, hnext]
    by_cases hi : i + 1 < 2 ^ 31
    · have hfits : i + 1 + count ≤ (str.set (i - start) (str.getD i 0)).length := by
        rw [List.length_set]
        omega
      have hrest := ih (by omega) hfits
      have hiff : (count = 0 ∨ i + 1 + count < 2 ^ 31) ↔
          (count + 1 = 0 ∨ i + (count + 1) < 2 ^ 31) := by omega
      rw [if_pos hi, Option.bind_some, hrest]
      simp only [hiff]
    · rw [if_neg hi, if_neg (by omega), Option.bind_none]

theorem lastNonSpace_blank (hs : ∀ c ∈ s, isSpace c = true) (hk : k ≤ s.length) (post : Bytes) :
    lastNonSpace (s ++ post) k = none := by
  induction k with
  | zero => rfl
  | succ k ih =>
    have hspace : isSpace ((s ++ post).getD k 0) = true := by
      rw [List.getD_append _ _ _ _ (by omega), List.getD_eq_getElem _ _ (by omega)]
      exact hs _ (List.getElem_mem _)
    rw [lastNonSpace, if_pos hspace, ih (by omega)]

/-- The string without the white space behind it ends with a visible character. -/
theorem rdropWhile_split (h : s.rdropWhile isSpace ≠ []) : ∃ front b after,
    s = front ++ b :: after ∧ s.rdropWhile isSpace = front ++ [b] ∧ isSpace b = false ∧
      ∀ c ∈ after, isSpace c = true := by
  refine ⟨(s.rdropWhile isSpace).dropLast, (s.rdropWhile isSpace).getLast h,
    s.rtakeWhile isSpace, ?_, (List.dropLast_append_getLast h).symm, ?_, ?_⟩
  · rw [← List.singleton_append, ← List.append_assoc, List.dropLast_append_getLast h,
      List.rdropWhile_append_rtakeWhile]
  · exact Bool.eq_false_iff.mpr (List.rdropWhile_last_not isSpace s h)
  · exact fun c hc => List.mem_rtakeWhile_imp hc

/-- What is left when `stop` is `end + 1` at the end of the scans. -/
theorem shifted_cstr (hzero : (0 : Byte) ∉ s) (hstart : start ≤ stop) (hstop : stop ≤ s.length) :
    cstr ((shiftDown start (stop - start) 0 (s ++ [0])).set (stop - start) 0) =
      (s.take stop).drop start := by
  have hbefore : (s.take start).length = start := by
    rw [List.length_take]
    omega
  have hcore : ((s.take stop).drop start).length = stop - start := by
    rw [List.length_drop, List.length_take]
    omega
  have hsplit : s ++ [0] = s.take start ++ ((s.take stop).drop start ++ (s.drop stop ++ [0])) := by
    have htake : s.take start = (s.take stop).take start := by
      rw [List.take_take, Nat.min_eq_left hstart]
    rw [htake, ← List.append_assoc, List.take_append_drop, ← List.append_assoc,
      List.take_append_drop]
  have hnone : (0 : Byte) ∉ (s.take stop).drop start := fun h =>
    hzero (List.mem_of_mem_take (List.mem_of_mem_drop h))
  obtain ⟨left, -, hshift⟩ :=
    shiftDown_append [] (s.drop stop ++ [0]) (s.take start) ((s.take stop).drop start)
  rw [List.nil_append, List.nil_append, ← hsplit, hbefore, hcore, List.length_nil] at hshift
  have hset := List.set_append_right (s := (s.take stop).drop start)
    (t := left ++ (s.drop stop ++ [0])) (stop - start) 0 hcore.le
  rw [hshift, hset, hcore, Nat.sub_self]
  cases htail : left ++ (s.drop stop ++ [0]) with
  | nil => simp at htail
  | cons b tail => rw [List.set_cons_zero, cstr_append hnone]

theorem takeWhile_of_visible (front : Bytes) (hb : isSpace b = false) (rest : Bytes) :
    (front ++ b :: rest).takeWhile isSpace = front.takeWhile isSpace := by
  rw [List.takeWhile_append]
  split
  · next hall =>
    have hself := (List.takeWhile_prefix (l := front) isSpace).eq_of_length hall
    rw [List.takeWhile_cons, if_neg (Bool.eq_false_iff.mp hb), List.append_nil, hself]
  · rfl

theorem takeWhile_lt_visible (hvisible : s.rdropWhile isSpace ≠ []) :
    (s.takeWhile isSpace).length < (s.rdropWhile isSpace).length := by
  obtain ⟨front, b, after, hs, hcore, hb, -⟩ := rdropWhile_split hvisible
  have hfront := (List.takeWhile_prefix (l := front) isSpace).length_le
  rw [hcore, hs, takeWhile_of_visible front hb after, List.length_append, List.length_singleton]
  omega

/-- Both scans give the string without the white space around it. -/
theorem strip_eq (hvisible : s.rdropWhile isSpace ≠ []) :
    strip s = (s.take (s.rdropWhile isSpace).length).drop (s.takeWhile isSpace).length := by
  obtain ⟨front, b, after, hs, hcore, hb, -⟩ := rdropWhile_split hvisible
  have htake : s.take (s.rdropWhile isSpace).length = front ++ [b] := by
    have hstring : s = (front ++ [b]) ++ after := by
      rw [hs, List.append_assoc, List.singleton_append]
    rw [hcore, hstring, List.take_left]
  have hspaces : s.takeWhile isSpace = (front ++ [b]).takeWhile isSpace := by
    rw [hs, takeWhile_of_visible front hb after, takeWhile_of_visible front hb []]
  rw [strip, htake, hspaces, hcore]
  calc (front ++ [b]).dropWhile isSpace
      = ((front ++ [b]).takeWhile isSpace ++ (front ++ [b]).dropWhile isSpace).drop
          ((front ++ [b]).takeWhile isSpace).length := List.drop_left.symm
    _ = (front ++ [b]).drop ((front ++ [b]).takeWhile isSpace).length := by
      rw [List.takeWhile_append_dropWhile]

theorem lastNonSpace_visible (hvisible : s.rdropWhile isSpace ≠ [])
    (hn : (s.rdropWhile isSpace).length ≤ k) (hk : k ≤ s.length) :
    lastNonSpace (s ++ [0]) k = some (s.rdropWhile isSpace).length := by
  obtain ⟨front, b, after, hs, hcore, hb, hafter⟩ := rdropWhile_split hvisible
  have hlength : (s.rdropWhile isSpace).length = front.length + 1 := by
    rw [hcore, List.length_append, List.length_singleton]
  have hlast := @lastNonSpace_append front (after.drop (k - (front.length + 1)) ++ [0])
    (after.take (k - (front.length + 1))) b hb fun c hc => hafter c (List.mem_of_mem_take hc)
  have hstring : front ++ b :: (after ++ [0]) = s ++ [0] := by
    rw [hs]
    simp
  have hstop : front.length + 1 + (after.take (k - (front.length + 1))).length = k := by
    rw [hs, List.length_append, List.length_cons] at hk
    rw [List.length_take]
    omega
  rw [← List.append_assoc, List.take_append_drop, hstring, hstop] at hlast
  rw [hlast, hlength]

/-- The shift, with the terminator of the string still in its place. -/
theorem shiftString_string (hstart : start ≤ stop) (hstop : stop ≤ s.length) :
    shiftString start (stop - start) start (s ++ [0]) =
      if stop - start = 0 ∨ stop < 2 ^ 31 then
        some (shiftDown start (stop - start) 0 (s ++ [0])) else none := by
  have hsum : start + (stop - start) = stop := by omega
  have hlength : start + (stop - start) ≤ (s ++ [0]).length := by
    rw [List.length_append]
    omega
  rw [shiftString_eq le_rfl hlength, hsum, Nat.sub_self]

/-- `trim` is right if the scan from the end begins behind the last visible character and no
index leaves the range of `int`. -/
theorem trims_visible (hzero : (0 : Byte) ∉ s) (hvisible : s.rdropWhile isSpace ≠ [])
    (hk : (wrapInt 4 (s.length - 1) + 1).toNat = k) (hle : k ≤ s.length) :
    Trims s ↔ (s.rdropWhile isSpace).length < 2 ^ 31 ∧ (s.rdropWhile isSpace).length ≤ k := by
  have hless := takeWhile_lt_visible hvisible
  have hbound := (List.rdropWhile_prefix isSpace s).length_le
  have hstrip := strip_eq hvisible
  have hscan := lastNonSpace_visible (k := k) hvisible
  generalize (s.rdropWhile isSpace).length = n at hless hbound hstrip hscan ⊢
  unfold Trims trimString
  rw [firstNonSpace_string, hk, hstrip]
  generalize (s.takeWhile isSpace).length = start at hless ⊢
  constructor
  · intro h
    obtain ⟨str, htrim, hstr⟩ := h
    obtain ⟨first, hfirst, htrim⟩ := Option.bind_eq_some_iff.mp htrim
    obtain ⟨stop, hstop, htrim⟩ := Option.bind_eq_some_iff.mp htrim
    obtain rfl : start = first := by
      split at hfirst
      · exact Option.some.inj hfirst
      · contradiction
    split at htrim
    · contradiction
    next hcross =>
    have hstopk := lastNonSpace_le hstop
    obtain ⟨moved, hmoved, rfl⟩ := Option.map_eq_some_iff.mp htrim
    rw [shiftString_string (by omega) (by omega)] at hmoved
    split at hmoved
    · next hrange =>
      obtain rfl := Option.some.inj hmoved
      rw [shifted_cstr hzero (by omega) (by omega)] at hstr
      have hlengths := congrArg List.length hstr
      rw [List.length_drop, List.length_drop, List.length_take, List.length_take] at hlengths
      omega
    · contradiction
  · intro h
    obtain ⟨hrange, hnk⟩ := h
    refine ⟨_, ?_, shifted_cstr hzero hless.le hbound⟩
    rw [if_pos (by omega), Option.bind_some, hscan hnk hle, Option.bind_some, if_neg (by omega),
      shiftString_string hless.le hbound, if_pos (.inr hrange), Option.map_some]

/-! ### In the buffer -/

theorem trim_visible (hzero : (0 : Byte) ∉ s) (hvisible : s.rdropWhile isSpace ≠ [])
    (pre post : Bytes) : ∃ s', s'.length = s.length ∧ cstr s' = strip s ∧
      trim (pre ++ (s ++ 0 :: post)) pre.length = some (pre ++ (s' ++ 0 :: post)) := by
  obtain ⟨front, b, after, hs, hcore, hb, hafter⟩ := rdropWhile_split hvisible
  have hstrip : strip s = front.dropWhile isSpace ++ [b] := by
    rw [strip, hcore, List.dropWhile_append]
    split
    · next hempty =>
      rw [List.isEmpty_iff.mp hempty, List.dropWhile_cons, if_neg (Bool.eq_false_iff.mp hb)]
      rfl
    · rfl
  have hsplit : front.takeWhile isSpace ++ (strip s ++ after) = s := by
    rw [hstrip, List.append_assoc, ← List.append_assoc, List.takeWhile_append_dropWhile, hs]
    rfl
  have htrimmed : Trimmed (strip s) := by
    refine ⟨?_, front.dropWhile isSpace, b, hstrip, hb⟩
    rw [hstrip]
    cases hdrop : front.dropWhile isSpace with
    | nil => exact ⟨b, [], rfl, hb⟩
    | cons c rest =>
      have hhead := List.head?_dropWhile_not isSpace front
      rw [hdrop] at hhead
      exact ⟨c, rest ++ [b], rfl, Bool.eq_false_iff.mpr (by simpa using hhead)⟩
  have hnone : (0 : Byte) ∉ strip s := by
    intro hmem
    apply hzero
    rw [← hsplit]
    exact List.mem_append_right _ (List.mem_append_left _ hmem)
  obtain ⟨left, hleft, htrim⟩ := trim_append pre [] htrimmed
    (fun c hc => List.mem_takeWhile_imp hc) hafter (hsplit.symm ▸ hzero)
  rw [hsplit] at hleft htrim
  -- The zero behind the string is still there.
  have hends : Ends (pre ++ (s ++ [0])) := ⟨pre ++ s, (List.append_assoc ..).symm⟩
  have hinside : pre.length < (pre ++ (s ++ [0])).length := by simp
  obtain ⟨hkept, hframe⟩ := trim_frame hends hinside
  obtain ⟨hends', -⟩ := hkept _ htrim
  obtain ⟨s', hs'⟩ : ∃ s', strip s ++ 0 :: (left ++ []) = s' ++ [0] := by
    obtain ⟨whole, hwhole⟩ := hends'
    refine ⟨(strip s ++ 0 :: (left ++ [])).dropLast, ?_⟩
    have hne : strip s ++ 0 :: (left ++ []) ≠ [] := by simp
    have hlast := congrArg List.getLast? hwhole
    rw [List.getLast?_append_of_ne_nil _ hne, List.getLast?_concat,
      List.getLast?_eq_some_getLast hne] at hlast
    have hzero' := Option.some.inj hlast
    nth_rewrite 1 [← List.dropLast_append_getLast hne]
    rw [hzero']
  refine ⟨s', ?_, ?_, ?_⟩
  · have hlength := congrArg List.length hs'
    simp only [List.length_append, List.length_cons, List.length_nil] at hlength hleft
    omega
  · have hstring := congrArg cstr hs'
    rw [cstr_append hnone, cstr_append_zero] at hstring
    exact hstring.symm
  · have hline : pre ++ (s ++ 0 :: post) = pre ++ (s ++ [0]) ++ post := by simp
    rw [hline, hframe, htrim, hs', Option.map_some]
    simp

/-- The scan from the end stops in front of a blank string, and `trim` writes a zero as far in
front of it as the string is long. -/
theorem trim_blank (hzero : (0 : Byte) ∉ s) (hne : s ≠ []) (hs : ∀ c ∈ s, isSpace c = true)
    (hb : isSpace b = false) (front post : Bytes) :
    trim (front ++ [b] ++ (s ++ 0 :: post)) (front ++ [b]).length =
      if s.length ≤ (front ++ [b]).length then
        some ((front ++ [b]).set ((front ++ [b]).length - s.length) 0 ++ (s ++ 0 :: post))
      else none := by
  have htext : stringAt (front ++ [b] ++ (s ++ 0 :: post)) (front ++ [b]).length = s := by
    rw [stringAt_append, cstr_append hzero]
  have hstart : s.takeWhile isSpace = s := List.takeWhile_eq_self_iff.mpr hs
  have hlength : (front ++ [b]).length = front.length + 1 := by
    rw [List.length_append, List.length_singleton]
  have hstop : lastNonSpace (front ++ [b] ++ (s ++ 0 :: post)) ((front ++ [b]).length + s.length) =
      some (front ++ [b]).length := by
    have hlast := @lastNonSpace_append front (0 :: post) s b hb hs
    rwa [hlength, List.append_assoc, List.singleton_append]
  rw [trim, htext, hstart, hstop, Option.bind_some]
  by_cases hroom : s.length ≤ (front ++ [b]).length
  · have hcount : (front ++ [b]).length - ((front ++ [b]).length + s.length) = 0 := by omega
    have hpos := List.length_pos_iff.mpr hne
    rw [if_neg (by omega), if_pos hroom, hcount, shiftDown, List.set_append_left _ _ (by omega)]
  · rw [if_pos (by omega), if_neg hroom]

/-- Nothing stops the scan in a blank string at the front of the buffer. -/
theorem trim_blank_front (hzero : (0 : Byte) ∉ s) (hs : ∀ c ∈ s, isSpace c = true) (post : Bytes) :
    trim (s ++ 0 :: post) 0 = none := by
  have htext : stringAt (s ++ 0 :: post) 0 = s := cstr_append hzero post
  rw [trim, htext, Nat.zero_add, lastNonSpace_blank hs le_rfl, Option.bind_none]

end Scans

/-- Of a blank string `trim` reads what stands before it. -/
theorem trims_iff (s : Bytes) (noZero : (0 : Byte) ∉ s) : Trims s ↔
    let visible := (s.rdropWhile isSpace).length
    visible ≠ 0 ∧ visible < 2 ^ 31 ∧ (visible : ℤ) ≤ wrapInt 4 (s.length - 1) + 1 := by
  dsimp only
  have hle : (wrapInt 4 (s.length - 1) + 1).toNat ≤ s.length := by
    cases s with
    | nil => decide
    | cons b s =>
      have hwrap := (wrapInt_natCast_le s.length).1
      have hlength : ((b :: s).length : ℤ) - 1 = s.length := by
        rw [List.length_cons]
        omega
      rw [hlength, List.length_cons]
      omega
  by_cases hvisible : s.rdropWhile isSpace = []
  · have hblank := List.rdropWhile_eq_nil_iff.mp hvisible
    refine iff_of_false ?_ fun h => h.1 (List.length_eq_zero_iff.mpr hvisible)
    intro ⟨str, htrim, _⟩
    obtain ⟨start, -, htrim⟩ := Option.bind_eq_some_iff.mp htrim
    rw [lastNonSpace_blank hblank hle] at htrim
    contradiction
  · have hpos := List.length_pos_iff.mpr hvisible
    rw [trims_visible noZero hvisible rfl hle]
    omega

theorem inner_kept : Trims [32, 97, 32, 98, newline] :=
  (trims_iff [32, 97, 32, 98, newline] (by decide)).mpr (by decide)

/-- The second piece of `a | |b`. -/
theorem blank_faults : ¬ ∀ s, (0 : Byte) ∉ s → Trims s := by
  intro h
  obtain ⟨str, htrim, -⟩ := h [32] (by decide)
  have hnone : trimString [32] = none := by decide
  exact absurd (hnone.symm.trans htrim) (Option.some_ne_none str).symm

end AdvancedCProjects.Terminal
