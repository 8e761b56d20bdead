import AdvancedCProjects.Base.Lines
import AdvancedCProjects.Bibo.Session

/-!
# What readF answers (biboServer.c:186-260)

The requests `readF f n` and `readF f`, and the response to each against the lines
and the bytes of the file.
-/

namespace AdvancedCProjects.Bibo
open Base

namespace Reading

/-- A name that `%49s` reads whole. -/
structure FileName (f : Bytes) : Prop where
  ne_nil : f ≠ []
  short : f.length ≤ 49
  plain : ∀ b ∈ f, isSpace b = false ∧ b ≠ 0

def lineRequest (f : Bytes) (n : ℕ) : Bytes := utf8 "readF " ++ (f ++ (space :: decimal n))

def fileRequest (f : Bytes) : Bytes := utf8 "readF " ++ f

def frame (text : Bytes) : Bytes := encodeInt 4 text.length ++ text

/-! ### Numbers -/

section Decimal
variable {n : ℕ}

def IsDigit (b : Byte) : Prop := 48 ≤ b ∧ b ≤ 57

instance (b : Byte) : Decidable (IsDigit b) := inferInstanceAs (Decidable (_ ∧ _))

theorem digit_val {d : ℕ} (h : d < 10) : (Fin.ofNat 256 (48 + d)).val - 48 = d ∧
    IsDigit (Fin.ofNat 256 (48 + d)) := by
  interval_cases d <;> decide

theorem decimal_digits (n : ℕ) : ∀ b ∈ decimal n, IsDigit b := by
  intro b hb
  simp only [decimal] at hb
  split at hb
  · rw [List.mem_singleton.mp hb]
    decide
  · obtain ⟨d, hd, rfl⟩ := List.mem_map.mp hb
    exact (digit_val (Nat.digits_lt_base (by decide) (List.mem_reverse.mp hd))).2

theorem decimal_ne_nil (n : ℕ) : decimal n ≠ [] := by
  simp only [decimal]
  split
  · exact List.cons_ne_nil _ _
  · next hn =>
    simp only [ne_eq, List.map_eq_nil_iff, List.reverse_eq_nil_iff, Nat.digits_eq_nil_iff_eq_zero]
    exact hn

/-- What the loop of `strtol` makes of digits. -/
def digitsValue (digits : Bytes) : ℕ := digits.foldl (fun n b => 10 * n + (b.val - 48)) 0

theorem digitsValue_decimal (n : ℕ) : digitsValue (decimal n) = n := by
  have hfold (ds : List ℕ) (hds : ∀ d ∈ ds, d < 10) :
      digitsValue (ds.reverse.map fun d => Fin.ofNat 256 (48 + d)) = Nat.ofDigits 10 ds := by
    induction ds with
    | nil => rfl
    | cons d ds ih =>
      have hd := (digit_val (hds d List.mem_cons_self)).1
      have hrest := ih fun e he => hds e (List.mem_cons_of_mem _ he)
      simp only [digitsValue] at hrest ⊢
      rw [List.reverse_cons, List.map_append, List.foldl_append, hrest, List.map_singleton,
        List.foldl_cons, List.foldl_nil, hd, Nat.ofDigits_cons, Nat.add_comm]
  by_cases hn : n = 0
  · rw [hn]
    rfl
  · rw [decimal, if_neg hn, hfold _ fun d hd => Nat.digits_lt_base (by decide) hd,
      Nat.ofDigits_digits]

theorem isSpace_of_digit {b : Byte} (h : IsDigit b) : isSpace b = false := by
  have hlo : 48 ≤ b.val := h.1
  simp only [isSpace, decide_eq_false_iff_not, not_or, not_and]
  constructor
  · rintro rfl
    exact absurd hlo (by decide)
  · intro _ hle
    have hle : b.val ≤ 13 := hle
    omega

theorem scanInt_decimal (hn : n < 2 ^ 31) : scanInt (space :: decimal n) = some (n : ℤ) := by
  obtain ⟨b, ds, hds⟩ : ∃ b ds, decimal n = b :: ds := List.exists_cons_of_ne_nil (decimal_ne_nil n)
  have hdigits := decimal_digits n
  have hvalue := digitsValue_decimal n
  rw [hds] at hdigits hvalue ⊢
  have hb := hdigits b List.mem_cons_self
  have hdrop : (space :: b :: ds).dropWhile isSpace = b :: ds := by
    rw [List.dropWhile_cons_of_pos (by decide), List.dropWhile_cons_of_neg]
    simp [isSpace_of_digit hb]
  have hminus : b ≠ 45 := by
    rintro rfl
    exact absurd hb (by decide)
  have hplus : b ≠ 43 := by
    rintro rfl
    exact absurd hb (by decide)
  have hall : (b :: ds).takeWhile (fun b => decide (48 ≤ b ∧ b ≤ 57)) = b :: ds := by
    rw [List.takeWhile_eq_self_iff]
    exact fun c hc => decide_eq_true (hdigits c hc)
  have hwrap := wrapInt_length hn
  simp only [scanInt, hdrop, List.head?_cons, Option.some.injEq, hminus, hplus, or_self, if_false,
    hall]
  simp only [digitsValue] at hvalue
  rw [hvalue, min_eq_left (by omega), hwrap]

theorem decimal_injective {m : ℕ} (h : decimal m = decimal n) : m = n := by
  rw [← digitsValue_decimal m, h, digitsValue_decimal]

end Decimal

/-! ### Requests -/

section Requests
variable {f rest : Bytes} {env : Env} {clientPid n : ℕ}

theorem scanReadF_name (hf : FileName f) (hrest : ∀ b, rest.head? = some b → isSpace b = true) :
    scanReadF (utf8 "readF " ++ (f ++ rest)) = some (f, (scanInt rest).getD (-1)) := by
  have hdrop : (utf8 "readF " ++ (f ++ rest)).drop 5 = space :: (f ++ rest) := rfl
  have hfront : (space :: (f ++ rest)).dropWhile isSpace = f ++ rest := by
    obtain ⟨b, g, rfl⟩ := List.exists_cons_of_ne_nil hf.ne_nil
    have hb := (hf.plain b List.mem_cons_self).1
    rw [List.dropWhile_cons_of_pos (by decide), List.cons_append, List.dropWhile_cons_of_neg]
    simp [hb]
  have hname : (f ++ rest).takeWhile (fun b => !isSpace b) = f := by
    have hall : ∀ b ∈ f, (!isSpace b) = true := by
      intro b hb
      simp [(hf.plain b hb).1]
    have hstop : rest.takeWhile (fun b => !isSpace b) = [] := by
      cases rest with
      | nil => rfl
      | cons b rest =>
        have hb := hrest b rfl
        rw [List.takeWhile_cons_of_neg]
        simp [hb]
    rw [List.takeWhile_append_of_pos hall, hstop, List.append_nil]
  have htake : f.take 49 = f := List.take_of_length_le hf.short
  obtain ⟨b, g, hg⟩ := List.exists_cons_of_ne_nil hf.ne_nil
  simp only [scanReadF, hdrop, hfront, hname, htake]
  rw [hg]
  simp

theorem scanReadF_lineRequest (hf : FileName f) (hn : n < 2 ^ 31) :
    scanReadF (lineRequest f n) = some (f, (n : ℤ)) := by
  have hrest : ∀ b, (space :: decimal n).head? = some b → isSpace b = true := by
    intro b hb
    obtain rfl := Option.some.inj hb
    decide
  rw [lineRequest, scanReadF_name hf hrest, scanInt_decimal hn]
  rfl

theorem scanReadF_fileRequest (hf : FileName f) : scanReadF (fileRequest f) = some (f, -1) := by
  have hrest : ∀ b, ([] : Bytes).head? = some b → isSpace b = true := by simp
  have hscan := scanReadF_name hf hrest
  rw [List.append_nil] at hscan
  exact hscan

theorem handleMessage_readF {message : Bytes} (hzero : (0 : Byte) ∉ message)
    (h : message.take 6 = utf8 "readF ") :
    handleMessage env clientPid message = readF env message := by
  have hne (word : Bytes) (hword : word.take 6 ≠ utf8 "readF ") : message ≠ word := by
    rintro rfl
    exact hword h
  have hhelp : message.take 5 ≠ utf8 "help " := fun hhelp => help_not_readF hhelp h
  simp only [handleMessage, cstr_self hzero, if_neg (hne (utf8 "help") (by decide)), if_neg hhelp,
    if_neg (hne (utf8 "list") (by decide)), if_neg (hne (utf8 "quit") (by decide)),
    if_neg (hne (utf8 "killServer") (by decide)), if_pos h]

theorem readF_eq {message filename file : Bytes} {lineNumber : ℤ} (hline : newline ∉ message)
    (hscan : scanReadF message = some (filename, lineNumber))
    (hfile : env.files filename = some file) :
    readF env message = if env.memory = true then
        if lineNumber > 0 then readLine lineNumber.toNat file else answer (wholeFile file)
      else .returns [] := by
  have hwhole : message.takeWhile (· ≠ newline) = message := by
    rw [List.takeWhile_eq_self_iff]
    intro b hb
    exact decide_eq_true fun h => hline (h ▸ hb)
  rw [readF, hwhole, hscan]
  dsimp only
  rw [hfile]
  dsimp only
  rw [ite_not]

theorem fileName_plain (hf : FileName f) : (0 : Byte) ∉ f ∧ newline ∉ f := by
  refine ⟨fun h => (hf.plain _ h).2 rfl, fun h => ?_⟩
  have hspace := (hf.plain _ h).1
  exact absurd hspace (by decide)

theorem decimal_plain (n : ℕ) : (0 : Byte) ∉ decimal n ∧ newline ∉ decimal n := by
  refine ⟨fun h => ?_, fun h => ?_⟩
  · exact absurd (decimal_digits n _ h) (by decide)
  · exact absurd (decimal_digits n _ h) (by decide)

theorem lineRequest_plain (hf : FileName f) (n : ℕ) :
    (0 : Byte) ∉ lineRequest f n ∧ newline ∉ lineRequest f n := by
  have hword : (0 : Byte) ∉ utf8 "readF " ∧ newline ∉ utf8 "readF " := by decide
  have hspace : (0 : Byte) ≠ space ∧ newline ≠ space := by decide
  have hname := fileName_plain hf
  have hnumber := decimal_plain n
  simp only [lineRequest, List.mem_append, List.mem_cons, not_or]
  exact ⟨⟨hword.1, hname.1, hspace.1, hnumber.1⟩, hword.2, hname.2, hspace.2, hnumber.2⟩

theorem fileRequest_plain (hf : FileName f) :
    (0 : Byte) ∉ fileRequest f ∧ newline ∉ fileRequest f := by
  have hword : (0 : Byte) ∉ utf8 "readF " ∧ newline ∉ utf8 "readF " := by decide
  have hname := fileName_plain hf
  simp only [fileRequest, List.mem_append, not_or]
  exact ⟨⟨hword.1, hname.1⟩, hword.2, hname.2⟩

theorem handleMessage_lineRequest {file : Bytes} (hf : FileName f) (hn : 0 < n ∧ n < 2 ^ 31)
    (hfile : env.files f = some file) :
    handleMessage env clientPid (lineRequest f n) =
      if env.memory = true then readLine n file else .returns [] := by
  obtain ⟨hzero, hline⟩ := lineRequest_plain hf n
  have hpos : (n : ℤ) > 0 := by omega
  rw [handleMessage_readF hzero rfl, readF_eq hline (scanReadF_lineRequest hf hn.2) hfile,
    if_pos hpos, Int.toNat_natCast]

theorem handleMessage_fileRequest {file : Bytes} (hf : FileName f)
    (hfile : env.files f = some file) :
    handleMessage env clientPid (fileRequest f) =
      if env.memory = true then answer (wholeFile file) else .returns [] := by
  obtain ⟨hzero, hline⟩ := fileRequest_plain hf
  have hneg : ¬ (-1 : ℤ) > 0 := by decide
  rw [handleMessage_readF hzero rfl, readF_eq hline (scanReadF_fileRequest hf) hfile, if_neg hneg]

end Requests

/-! ### One line -/

/-- The response that the request asks for. -/
def lineResponse (file : Bytes) (n : ℕ) : Bytes :=
  match (lines file)[n - 1]? with
  | some line => utf8 "Line " ++ decimal n ++ utf8 ": " ++ line
  | none => utf8 "The file has only " ++ decimal (lines file).length ++ utf8 " lines.\n"

def room : ℕ := 1023

/-- The `n`-th line is returned in one piece that reads like it. No line before it
is cut, or a piece of such a line reads like it by chance. -/
structure Found (file : Bytes) (n : ℕ) (line : Bytes) : Prop where
  plain : (0 : Byte) ∉ line
  short : line.length ≤ room
  alone : (∀ before ∈ (lines file).take (n - 1), before.length ≤ room) ∨
    ∃ tail, (pieces room file)[n - 1]? = some (line ++ tail) ∧ cstr tail = []

def LineRead (file : Bytes) (n : ℕ) : Prop :=
  match (lines file)[n - 1]? with
  | some line => Found file n line
  | none => (∀ line ∈ lines file, line.length ≤ room) ∧ n ≠ (lines file).length + 1

section Line
variable {file line piece : Bytes} {n : ℕ}

theorem findLine_pieces (lineNumber currentLine : ℕ) (file : Bytes)
    (h : currentLine ≤ lineNumber) :
    (findLine lineNumber currentLine file).2 = (pieces room file)[lineNumber - currentLine]? ∧
      ((findLine lineNumber currentLine file).2 = none →
        (findLine lineNumber currentLine file).1 = currentLine + (pieces room file).length) := by
  fun_induction findLine lineNumber currentLine file with
  | case1 currentLine => simp [pieces, lines]
  | case2 b file =>
    rw [pieces_fgets (List.cons_ne_nil b file) (by decide), Nat.sub_self]
    simp [room]
  | case3 currentLine b file hne ih =>
    obtain ⟨hpiece, hcount⟩ := ih (by omega)
    have hindex : lineNumber - currentLine = (lineNumber - (currentLine + 1)) + 1 := by omega
    rw [pieces_fgets (List.cons_ne_nil b file) (by decide), hindex, List.getElem?_cons_succ]
    refine ⟨hpiece, fun hnone => ?_⟩
    rw [hcount hnone, List.length_cons]
    simp only [room]
    omega

def lineText (file : Bytes) (n : ℕ) : Bytes :=
  match (pieces room file)[n - 1]? with
  | some piece => utf8 "Line " ++ decimal n ++ utf8 ": " ++ cstr piece
  | none =>
    if (pieces room file).length + 1 < n then
      utf8 "The file has only " ++ decimal (pieces room file).length ++ utf8 " lines.\n"
    else []

theorem readLine_eq (hn : 0 < n ∧ n < 2 ^ 31) (file : Bytes) :
    readLine n file = answer (lineText file n) := by
  have hone := readLine_oneFrame hn.1 hn.2 file
  obtain ⟨hpiece, hcount⟩ := findLine_pieces n 1 file hn.1
  unfold readLine at hone ⊢
  unfold lineText
  rw [← hpiece]
  split at hone
  · next c piece heq =>
    rw [heq]
    dsimp only [sprintf] at hone ⊢
    split at hone
    · next hfits => rw [if_pos hfits]
    · exact absurd hone not_oneFrame_fault
  · next currentLine heq =>
    have hc : currentLine = 1 + (pieces room file).length := by
      rw [heq] at hcount
      exact hcount rfl
    rw [hc, Nat.add_sub_cancel_left, Nat.add_comm 1] at hone
    rw [heq, hc, Nat.add_sub_cancel_left, Nat.add_comm 1]
    by_cases hless : (pieces room file).length + 1 < n
    · simp only [if_pos hless, sprintf] at hone ⊢
      split at hone
      · next hfits => rw [if_pos hfits]
      · exact absurd hone not_oneFrame_fault
    · simp only [if_neg hless]

theorem pieces_nonempty_le (h : piece ∈ pieces room file) : piece.length ≤ room := by
  obtain ⟨line, -, hcut⟩ := List.mem_flatMap.mp h
  exact cut_piece_le (by decide) hcut

theorem found_iff (hline : (lines file)[n - 1]? = some line) :
    (∃ piece, (pieces room file)[n - 1]? = some piece ∧ cstr piece = line) ↔
      Found file n line := by
  constructor
  · intro ⟨piece, hpiece, hread⟩
    obtain ⟨tail, hsplit, htail⟩ := exists_behind_cstr piece
    have hshort := pieces_nonempty_le (List.mem_of_getElem? hpiece)
    have hlen := congrArg List.length hsplit
    rw [List.length_append] at hlen
    rw [hread] at hsplit hlen
    refine ⟨hread ▸ zero_not_mem_cstr piece, by omega, .inr ⟨tail, ?_, htail⟩⟩
    rw [← hsplit, hpiece]
  · intro hfound
    rcases hfound.alone with hbefore | ⟨tail, hpiece, htail⟩
    · exact ⟨line, getElem?_pieces hline hfound.short hbefore, cstr_self hfound.plain⟩
    · refine ⟨line ++ tail, hpiece, ?_⟩
      rw [cstr_append_of_noZero hfound.plain, htail, List.append_nil]

theorem lineText_eq_iff (hn : 0 < n) : lineText file n = lineResponse file n ↔ LineRead file n := by
  have hle := lines_length_le_pieces room file
  have hall : (pieces room file).length = (lines file).length ↔
      ∀ line ∈ lines file, line.length ≤ room := pieces_length_iff (by decide)
  unfold LineRead lineResponse lineText
  cases hline : (lines file)[n - 1]? with
  | some line =>
    have hlt := (List.getElem?_eq_some_iff.mp hline).1
    have hpiece : (pieces room file)[n - 1]? = some (pieces room file)[n - 1] :=
      List.getElem?_eq_getElem (by omega)
    have hfound := found_iff hline
    rw [hpiece] at hfound ⊢
    simp only [Option.some.injEq, exists_eq_left'] at hfound
    simp only [List.append_cancel_left_eq]
    exact hfound
  | none =>
    have hge := List.getElem?_eq_none_iff.mp hline
    cases hpiece : (pieces room file)[n - 1]? with
    | some piece =>
      have hlt := (List.getElem?_eq_some_iff.mp hpiece).1
      have hmore : (pieces room file).length ≠ (lines file).length := by omega
      have hword : (utf8 "Line ").head? ≠ (utf8 "The file has only ").head? := by decide
      refine iff_of_false (fun heq => ?_) fun h => hmore (hall.mpr h.1)
      have hhead := congrArg List.head? heq
      exact absurd hhead hword
    | none =>
      have hge' := List.getElem?_eq_none_iff.mp hpiece
      dsimp only
      by_cases hless : (pieces room file).length + 1 < n
      · rw [if_pos hless, List.append_cancel_right_eq, List.append_cancel_left_eq]
        constructor
        · intro heq
          have hlen := decimal_injective heq
          exact ⟨hall.mp hlen, by omega⟩
        · intro h
          rw [hall.mpr h.1]
      · rw [if_neg hless]
        refine iff_of_false (fun heq => ?_) fun h => ?_
        · have hfront : (utf8 "The file has only ").length = 18 := by decide
          have hlen := congrArg List.length heq
          simp only [List.length_nil, List.length_append] at hlen
          omega
        · have hlen := hall.mpr h.1
          have hneq := h.2
          omega

theorem lineText_length (hn : n < 2 ^ 31) : (lineText file n).length < 2 ^ 31 := by
  have hline : (utf8 "Line ").length = 5 := by decide
  have hcolon : (utf8 ": ").length = 2 := by decide
  have hfront : (utf8 "The file has only ").length = 18 := by decide
  have hback : (utf8 " lines.\n").length = 8 := by decide
  unfold lineText
  split
  · next piece hpiece =>
    have hshort := pieces_nonempty_le (List.mem_of_getElem? hpiece)
    have hread : (cstr piece).length ≤ piece.length := (List.takeWhile_prefix _).length_le
    have hdigits := decimal_length hn
    simp only [room] at hshort
    simp only [List.length_append]
    omega
  · split
    · next hless =>
      have hdigits := decimal_length (n := (pieces room file).length) (by omega)
      simp only [List.length_append]
      omega
    · simp

theorem answer_eq_frame {text body : Bytes} (h : text.length < 2 ^ 31) :
    answer text = .returns (frame body) ↔ text = body := by
  have hbytes : frameBytes text = frame text := by
    rw [frameBytes, frame, wrapInt_length h, Int.toNat_natCast, List.take_length]
  simp only [answer, Outcome.returns.injEq, hbytes, frame]
  constructor
  · intro heq
    exact (List.append_inj heq (by simp only [encodeInt_length])).2
  · intro heq
    rw [heq]

end Line

/-- `readF f n` is answered with the line, or with the number of lines, exactly if
there is memory and the lines fit the buffer of `fgets`. -/
theorem readF_line_iff (env : Env) (clientPid n : ℕ) (f file : Bytes) (hf : FileName f)
    (hn : 0 < n ∧ n < 2 ^ 31) (hfile : env.files f = some file) :
    handleMessage env clientPid (lineRequest f n) = .returns (frame (lineResponse file n)) ↔
      env.memory = true ∧ LineRead file n := by
  rw [handleMessage_lineRequest hf hn hfile]
  by_cases hmemory : env.memory = true
  · rw [if_pos hmemory, readLine_eq hn, answer_eq_frame (lineText_length hn.2),
      lineText_eq_iff hn.1]
    exact (and_iff_right hmemory).symm
  · rw [if_neg hmemory]
    refine iff_of_false (fun heq => ?_) fun h => hmemory h.1
    have hlen := congrArg List.length (Outcome.returns.inj heq)
    simp only [frame, List.length_nil, List.length_append, encodeInt_length] at hlen
    omega

def twoLines : Env := ⟨fun _ => some (utf8 "a\nb"), none, true⟩

theorem fileName_x : FileName (utf8 "x") := ⟨by decide, by decide, by decide +kernel⟩

theorem secondLine_read :
    handleMessage twoLines 11 (lineRequest (utf8 "x") 2) = .returns (frame (utf8 "Line 2: b")) := by
  have hread : LineRead (utf8 "a\nb") 2 := by
    have hline : (lines (utf8 "a\nb"))[2 - 1]? = some (utf8 "b") := by decide
    unfold LineRead
    rw [hline]
    exact ⟨by decide, by decide, .inl (by decide)⟩
  exact (readF_line_iff twoLines 11 2 (utf8 "x") (utf8 "a\nb") fileName_x (by decide) rfl).mpr
    ⟨rfl, hread⟩

def LinesRead : Prop :=
  ∀ (env : Env) (clientPid n : ℕ) (f file : Bytes), FileName f → 0 < n ∧ n < 2 ^ 31 →
    env.files f = some file → env.memory = true →
    handleMessage env clientPid (lineRequest f n) = .returns (frame (lineResponse file n))

/-- The line behind the last one is answered with nothing. -/
theorem thirdLine_empty : ¬ LinesRead := by
  intro h
  have hthird := h twoLines 11 3 (utf8 "x") (utf8 "a\nb") fileName_x (by decide) rfl rfl
  have hempty : handleMessage twoLines 11 (lineRequest (utf8 "x") 3) = .returns (frame []) := by
    have hcount : (pieces room (utf8 "a\nb")).length = 2 :=
      (pieces_length_iff (by decide)).mpr (by decide +kernel)
    have hnone : (pieces room (utf8 "a\nb"))[3 - 1]? = none := List.getElem?_eq_none hcount.le
    have htext : lineText (utf8 "a\nb") 3 = [] := by
      unfold lineText
      rw [hnone, hcount]
      rfl
    rw [handleMessage_lineRequest fileName_x (by decide) rfl, readLine_eq (by decide), htext]
    rfl
  rw [hempty] at hthird
  exact absurd hthird (by decide)

/-! ### The whole file -/

/-- A frame whose length is right. -/
def Carries (o : Outcome) (text : Bytes) : Prop := o = .returns (frame text) ∧ text.length < 2 ^ 31

section WholeFile
variable {file : Bytes}

theorem wholeFile_sublist (file : Bytes) : (wholeFile file).Sublist file :=
  List.filter_sublist.trans (List.takeWhile_prefix _).sublist

theorem wholeFile_eq_iff : wholeFile file = file ↔ (0 : Byte) ∉ file ∧ (255 : Byte) ∉ file := by
  constructor
  · intro h
    refine ⟨fun hzero => ?_, fun heof => ?_⟩
    · rw [← h] at hzero
      have hne := (List.mem_filter.mp hzero).2
      simp at hne
    · rw [← h] at heof
      have hne := List.mem_takeWhile_imp (List.mem_filter.mp heof).1
      simp at hne
  · intro h
    have htake : file.takeWhile (· ≠ 255) = file := by
      rw [List.takeWhile_eq_self_iff]
      intro b hb
      exact decide_eq_true fun heq => h.2 (heq ▸ hb)
    rw [wholeFile, htake, List.filter_eq_self]
    intro b hb
    exact decide_eq_true fun heq => h.1 (heq ▸ hb)

theorem answer_wholeFile : Carries (answer (wholeFile file)) file ↔
    file.length < 2 ^ 31 ∧ (0 : Byte) ∉ file ∧ (255 : Byte) ∉ file := by
  constructor
  · intro h
    obtain ⟨heq, hlen⟩ := h
    refine ⟨hlen, wholeFile_eq_iff.mp ?_⟩
    have hle := (wholeFile_sublist file).length_le
    have htext := (answer_eq_frame (by omega)).mp heq
    exact htext
  · intro h
    rw [wholeFile_eq_iff.mpr h.2]
    exact ⟨(answer_eq_frame h.1).mpr rfl, h.1⟩

end WholeFile

/-- `readF` without a line number answers with the file exactly if there is memory,
the length is an `int`, and no byte ends the string or looks like `EOF`. -/
theorem readF_file_iff (env : Env) (command filename file : Bytes) (lineNumber : ℤ)
    (hscan : scanReadF (command.takeWhile (· ≠ newline)) = some (filename, lineNumber))
    (hnumber : lineNumber ≤ 0) (hfile : env.files filename = some file) :
    Carries (readF env command) file ↔ env.memory = true ∧ file.length < 2 ^ 31 ∧
      (0 : Byte) ∉ file ∧ (255 : Byte) ∉ file := by
  rw [readF, hscan]
  dsimp only
  rw [hfile]
  dsimp only
  by_cases hmemory : env.memory = true
  · rw [if_neg (not_not.mpr hmemory), if_neg (by omega), answer_wholeFile]
    exact (and_iff_right hmemory).symm
  · rw [if_pos hmemory]
    refine iff_of_false (fun h => ?_) fun h => hmemory h.1
    have hlen := congrArg List.length (Outcome.returns.inj h.1)
    simp only [frame, List.length_nil, List.length_append, encodeInt_length] at hlen
    omega

theorem textFile_carried : Carries (readF twoLines (fileRequest (utf8 "x"))) (utf8 "a\nb") := by
  have hscan : scanReadF ((fileRequest (utf8 "x")).takeWhile (· ≠ newline)) =
      some (utf8 "x", -1) := by
    decide
  exact (readF_file_iff twoLines _ _ (utf8 "a\nb") (-1) hscan (by decide) rfl).mpr
    ⟨rfl, by decide, by decide, by decide⟩

def FilesCarried : Prop :=
  ∀ (env : Env) (command filename file : Bytes) (lineNumber : ℤ),
    scanReadF (command.takeWhile (· ≠ newline)) = some (filename, lineNumber) → lineNumber ≤ 0 →
    env.files filename = some file → env.memory = true → Carries (readF env command) file

/-- Behind the byte 255 nothing is sent. -/
theorem byte255_ends : ¬ FilesCarried := by
  intro h
  have hcut := h ⟨fun _ => some [97, 255, 98], none, true⟩ (fileRequest (utf8 "x")) (utf8 "x")
    [97, 255, 98] (-1) (by decide) (by decide) rfl rfl
  exact absurd hcut.1 (by decide)

end Reading
end AdvancedCProjects.Bibo
