import AdvancedCProjects.Terminal.Parse
import Mathlib.Data.List.Forall2

/-!
# Parsing undoes printing

A pipeline as it is meant, the lines it can be written as, and that `main` reads
it back from each of them.
-/

namespace AdvancedCProjects.Terminal
open Base

section Pipelines

/-- A word is a C string; `isspace` is defined for its characters. -/
structure Word where
  text : Bytes
  nonempty : text ≠ []
  ascii : ∀ b ∈ text, 0 < b ∧ b < 128
  noSpace : ∀ b ∈ text, isSpace b = false
  noBar : bar ∉ text
  ne_less : text ≠ [less]
  ne_greater : text ≠ [greater]

inductive Direction where
  | input
  | output
  deriving DecidableEq

def Direction.symbol : Direction → Byte
  | .input => less
  | .output => greater

structure Redirection where
  direction : Direction
  file : Word

def Redirection.tokens (redirection : Redirection) : List Bytes :=
  [[redirection.direction.symbol], redirection.file.text]

structure Command where
  words : List Word
  nonempty : words ≠ []
  redirections : List Redirection

def Command.tokens (command : Command) : List Bytes :=
  command.words.map Word.text ++ command.redirections.flatMap Redirection.tokens

def lastFile (direction : Direction) (redirections : List Redirection) : Option Bytes :=
  (redirections.filter (·.direction = direction)).getLast?.map (·.file.text)

/-- What the child of the command is to do. -/
def Command.exec (command : Command) : Exec where
  args := command.words.map Word.text
  inputFile := lastFile .input command.redirections
  outputFile := lastFile .output command.redirections

/-- One or more spaces between the tokens. -/
inductive Spaced : List Bytes → Bytes → Prop where
  | last (token : Bytes) : Spaced [token] token
  | more {tokens : List Bytes} {text : Bytes} (token : Bytes) (n : ℕ) (rest : Spaced tokens text) :
    Spaced (token :: tokens) (token ++ space :: (List.replicate n space ++ text))

/-- White space within a line. -/
def Blank (text : Bytes) : Prop := ∀ b ∈ text, isSpace b = true ∧ b ≠ newline

/-- Any white space around the tokens of the command. -/
def WrittenCommand (command : Command) (text : Bytes) : Prop :=
  ∃ before tokens after, Blank before ∧ Spaced command.tokens tokens ∧ Blank after ∧
    text = before ++ (tokens ++ after)

/-- A bar between the commands. -/
inductive Written : List Command → Bytes → Prop where
  | last {command : Command} {text : Bytes} (first : WrittenCommand command text) :
    Written [command] text
  | more {command : Command} {commands : List Command} {text line : Bytes}
      (first : WrittenCommand command text) (rest : Written commands line) :
    Written (command :: commands) (text ++ bar :: line)

end Pipelines

/-- What all tokens have in common. -/
structure Plain (token : Bytes) : Prop where
  nonempty : token ≠ []
  chars : ∀ b ∈ token, b ≠ 0 ∧ isSpace b = false ∧ b ≠ bar

section Tokens
variable {token text : Bytes} {tokens : List Bytes} {command : Command}

theorem Word.plain (word : Word) : Plain word.text where
  nonempty := word.nonempty
  chars b hb := by
    refine ⟨?_, word.noSpace b hb, fun h => word.noBar (h ▸ hb)⟩
    rintro rfl
    exact absurd (word.ascii 0 hb).1 (by decide)

theorem Direction.symbol_plain (direction : Direction) : Plain [direction.symbol] where
  nonempty := List.cons_ne_nil _ _
  chars b hb := by
    obtain rfl := List.mem_singleton.mp hb
    cases direction <;> decide

theorem Command.tokens_plain (h : token ∈ command.tokens) : Plain token := by
  rcases List.mem_append.mp h with h | h
  · obtain ⟨word, -, rfl⟩ := List.mem_map.mp h
    exact word.plain
  · obtain ⟨redirection, -, hr⟩ := List.mem_flatMap.mp h
    simp only [Redirection.tokens, List.mem_cons, List.not_mem_nil, or_false] at hr
    rcases hr with rfl | rfl
    · exact redirection.direction.symbol_plain
    · exact redirection.file.plain

theorem Plain.isToken (h : Plain token) : IsToken space token where
  nonempty := h.nonempty
  noDelim hmem := absurd (h.chars _ hmem).2.1 (by decide)
  noZero hmem := (h.chars _ hmem).1 rfl

theorem Plain.char (h : Plain token) {b : Byte} (hb : b ∈ token) :
    b ≠ 0 ∧ b ≠ bar ∧ b ≠ newline := by
  obtain ⟨hzero, hspace, hbar⟩ := h.chars b hb
  refine ⟨hzero, hbar, ?_⟩
  rintro rfl
  contradiction

theorem Spaced.chars (h : Spaced tokens text) (hplain : ∀ token ∈ tokens, Plain token) :
    ∀ b ∈ text, b ≠ 0 ∧ b ≠ bar ∧ b ≠ newline := by
  induction h with
  | last token => exact fun b => (hplain token List.mem_cons_self).char
  | more token n _ ih =>
    intro b hb
    rcases List.mem_append.mp hb with hb | hb
    · exact (hplain token List.mem_cons_self).char hb
    rcases List.mem_cons.mp hb with rfl | hb
    · decide
    rcases List.mem_append.mp hb with hb | hb
    · obtain rfl := List.eq_of_mem_replicate hb
      decide
    · exact ih (fun token ht => hplain token (List.mem_cons_of_mem _ ht)) b hb

theorem Spaced.trimmed (h : Spaced tokens text) (hplain : ∀ token ∈ tokens, Plain token) :
    Trimmed text := by
  induction h with
  | last token =>
    obtain ⟨hne, hchars⟩ := hplain token List.mem_cons_self
    constructor
    · obtain ⟨b, rest, rfl⟩ := List.exists_cons_of_ne_nil hne
      exact ⟨b, rest, rfl, (hchars b List.mem_cons_self).2.1⟩
    · obtain ⟨rest, b, hconcat⟩ := (List.eq_nil_or_concat _).resolve_left hne
      rw [List.concat_eq_append] at hconcat
      subst hconcat
      exact ⟨rest, b, rfl, (hchars b (by simp)).2.1⟩
  | more token n _ ih =>
    obtain ⟨hne, hchars⟩ := hplain token List.mem_cons_self
    have ih := ih fun token ht => hplain token (List.mem_cons_of_mem _ ht)
    constructor
    · obtain ⟨b, rest, rfl⟩ := List.exists_cons_of_ne_nil hne
      exact ⟨b, _, rfl, (hchars b List.mem_cons_self).2.1⟩
    · obtain ⟨rest, b, rfl, hb⟩ := ih.last
      exact ⟨token ++ space :: (List.replicate n space ++ rest), b, by simp, hb⟩

theorem Spaced.cells (h : Spaced tokens text) : ∃ cells last,
    tokens = (cells ++ [(last, [])]).map Prod.fst ∧ text = joined space cells ++ last ∧
      ∀ cell ∈ cells, ∀ b ∈ cell.2, b = space := by
  induction h with
  | last token => exact ⟨[], token, rfl, rfl, fun _ h => absurd h List.not_mem_nil⟩
  | more token n _ ih =>
    obtain ⟨cells, last, rfl, rfl, hcells⟩ := ih
    refine ⟨(token, List.replicate n space) :: cells, last, rfl, by simp, ?_⟩
    intro cell hcell b hb
    rcases List.mem_cons.mp hcell with rfl | hcell
    · exact List.eq_of_mem_replicate hb
    · exact hcells cell hcell b hb

end Tokens

section Scans
variable {inputFile outputFile : Option Bytes} {args : List Bytes}

theorem scanFiles_word (word : Word) :
    scanFiles (word.text :: args) inputFile outputFile = scanFiles args inputFile outputFile := by
  rw [scanFiles, if_neg word.ne_less, if_neg word.ne_greater]

theorem lastFile_cons (direction : Direction) (r : Redirection) (rs : List Redirection) :
    lastFile direction (r :: rs) =
      (lastFile direction rs).or (if r.direction = direction then some r.file.text else none) := by
  unfold lastFile
  rw [List.filter_cons]
  by_cases h : r.direction = direction
  · rw [if_pos (decide_eq_true h), if_pos h, List.getLast?_cons]
    cases (rs.filter (·.direction = direction)).getLast? <;> rfl
  · rw [if_neg (by simpa using h), if_neg h, Option.or_none]

theorem scanFiles_redirections (inputFile outputFile : Option Bytes) (rs : List Redirection) :
    scanFiles (rs.flatMap Redirection.tokens) inputFile outputFile =
      ((lastFile .input rs).or inputFile, (lastFile .output rs).or outputFile) := by
  induction rs generalizing inputFile outputFile with
  | nil => rfl
  | cons r rs ih =>
    obtain ⟨direction, file⟩ := r
    have htokens : (⟨direction, file⟩ :: rs : List Redirection).flatMap Redirection.tokens =
        [direction.symbol] :: file.text :: rs.flatMap Redirection.tokens := rfl
    rw [htokens, lastFile_cons, lastFile_cons]
    cases direction with
    | input =>
      show (if [less] = [less] then _ else _) = _
      rw [if_pos rfl, scanFiles_word, ih]
      simp
    | output =>
      show (if [greater] = [less] then _ else _) = _
      rw [if_neg (by decide)]
      show (if [greater] = [greater] then _ else _) = _
      rw [if_pos rfl, scanFiles_word, ih]
      simp

theorem redirections_tokens (command : Command) :
    redirections command.tokens = some command.exec := by
  obtain ⟨words, hne, rs⟩ := command
  obtain ⟨word, words, rfl⟩ := List.exists_cons_of_ne_nil hne
  have hscan : ∀ ws : List Word, scanFiles (ws.map Word.text ++ rs.flatMap Redirection.tokens)
      none none = (lastFile .input rs, lastFile .output rs) := by
    intro ws
    induction ws with
    | nil => simpa using scanFiles_redirections none none rs
    | cons w ws ih => rw [List.map_cons, List.cons_append, scanFiles_word, ih]
  have hcut : (words.map Word.text ++ rs.flatMap Redirection.tokens).takeWhile
      (fun arg => arg ≠ [less] ∧ arg ≠ [greater]) = words.map Word.text := by
    rw [List.takeWhile_append_of_pos]
    · cases rs with
      | nil => simp
      | cons r rs =>
        obtain ⟨direction, file⟩ := r
        cases direction <;> simp [Redirection.tokens, Direction.symbol]
    · intro arg harg
      obtain ⟨w, -, rfl⟩ := List.mem_map.mp harg
      exact decide_eq_true ⟨w.ne_less, w.ne_greater⟩
  have htokens : (Command.mk (word :: words) hne rs).tokens =
      word.text :: (words.map Word.text ++ rs.flatMap Redirection.tokens) := rfl
  rw [htokens]
  simp only [redirections, hscan, hcut]
  rfl

end Scans

section Lines
variable {command : Command} {commands : List Command} {text line pre post : Bytes}

/-- What stands between two bars, with the end of the line taken for white space. -/
def Piece (command : Command) (text : Bytes) : Prop :=
  ∃ before tokens after, (∀ b ∈ before, isSpace b = true) ∧ Spaced command.tokens tokens ∧
    (∀ b ∈ after, isSpace b = true) ∧ text = before ++ (tokens ++ after)

theorem WrittenCommand.piece (h : WrittenCommand command text) : Piece command text := by
  obtain ⟨before, tokens, after, hbefore, htokens, hafter, rfl⟩ := h
  exact ⟨before, tokens, after, fun b hb => (hbefore b hb).1, htokens,
    fun b hb => (hafter b hb).1, rfl⟩

theorem WrittenCommand.piece_newline (h : WrittenCommand command text) :
    Piece command (text ++ [newline]) := by
  obtain ⟨before, tokens, after, hbefore, htokens, hafter, rfl⟩ := h
  refine ⟨before, tokens, after ++ [newline], fun b hb => (hbefore b hb).1, htokens, ?_, by simp⟩
  intro b hb
  rcases List.mem_append.mp hb with hb | hb
  · exact (hafter b hb).1
  · obtain rfl := List.mem_singleton.mp hb
    decide

theorem char_of_isSpace {b : Byte} (hb : isSpace b = true) : b ≠ 0 ∧ b ≠ bar := by
  constructor
  · rintro rfl
    contradiction
  · rintro rfl
    contradiction

theorem Piece.chars (h : Piece command text) : ∀ b ∈ text, b ≠ 0 ∧ b ≠ bar := by
  obtain ⟨before, tokens, after, hbefore, htokens, hafter, rfl⟩ := h
  intro b hb
  rcases List.mem_append.mp hb with hb | hb
  · exact char_of_isSpace (hbefore b hb)
  rcases List.mem_append.mp hb with hb | hb
  · obtain ⟨hzero, hbar, -⟩ := htokens.chars (fun _ => Command.tokens_plain) b hb
    exact ⟨hzero, hbar⟩
  · exact char_of_isSpace (hafter b hb)

theorem WrittenCommand.chars (h : WrittenCommand command text) :
    ∀ b ∈ text, b ≠ 0 ∧ b ≠ newline := by
  obtain ⟨before, tokens, after, hbefore, htokens, hafter, rfl⟩ := h
  intro b hb
  rcases List.mem_append.mp hb with hb | hb
  · exact ⟨(char_of_isSpace (hbefore b hb).1).1, (hbefore b hb).2⟩
  rcases List.mem_append.mp hb with hb | hb
  · obtain ⟨hzero, -, hnewline⟩ := htokens.chars (fun _ => Command.tokens_plain) b hb
    exact ⟨hzero, hnewline⟩
  · exact ⟨(char_of_isSpace (hafter b hb).1).1, (hafter b hb).2⟩

theorem Written.chars (h : Written commands line) : ∀ b ∈ line, b ≠ 0 ∧ b ≠ newline := by
  induction h with
  | last first => exact first.chars
  | more first _ ih =>
    intro b hb
    rcases List.mem_append.mp hb with hb | hb
    · exact first.chars b hb
    rcases List.mem_cons.mp hb with rfl | hb
    · decide
    · exact ih b hb

theorem Piece.isToken (h : Piece command text) : IsToken bar text where
  nonempty := by
    obtain ⟨before, tokens, after, -, htokens, -, rfl⟩ := h
    obtain ⟨b, rest, rfl, -⟩ := (htokens.trimmed fun _ => Command.tokens_plain).first
    simp
  noDelim hmem := (h.chars bar hmem).2 rfl
  noZero hmem := (h.chars 0 hmem).1 rfl

theorem Written.pieces (h : Written commands line) : ∃ pieces last,
    List.Forall₂ Piece commands (pieces ++ [last]) ∧
      line ++ [newline] = joined bar (pieces.map (·, [])) ++ last := by
  induction h with
  | last first => exact ⟨[], _, .cons first.piece_newline .nil, rfl⟩
  | more first _ ih =>
    obtain ⟨pieces, last, hpieces, hline⟩ := ih
    exact ⟨_ :: pieces, last, .cons first.piece hpieces, by simp [hline]⟩

/-- `main` trims all pieces; where they begin does not change. -/
theorem trim_pieces (pre post : Bytes) {pieces : List Bytes}
    (h : List.Forall₂ Piece commands pieces) :
    ∃ cells, List.Forall₂ (fun command cell => Spaced command.tokens cell.1) commands cells ∧
      offsets pre.length (pieces.map (·, [])) = offsets pre.length cells ∧
      (offsets pre.length (pieces.map (·, []))).foldlM trim
        (pre ++ (joined 0 (pieces.map (·, [])) ++ post)) =
          some (pre ++ (joined 0 cells ++ post)) := by
  induction h generalizing pre with
  | nil => exact ⟨[], .nil, rfl, rfl⟩
  | cons hpiece _ ih =>
    next command piece commands pieces _ =>
    have hzero := hpiece.isToken.noZero
    obtain ⟨before, tokens, after, hbefore, htokens, hafter, rfl⟩ := hpiece
    obtain ⟨left, hlength, htrim⟩ := trim_append pre (joined 0 (pieces.map (·, [])) ++ post)
      (htokens.trimmed fun _ => Command.tokens_plain) hbefore hafter hzero
    obtain ⟨cells, hcells, hoffsets, hfold⟩ := ih (pre ++ (tokens ++ 0 :: left))
    have hpre : (pre ++ (tokens ++ 0 :: left)).length =
        pre.length + (before ++ (tokens ++ after)).length + 1 := by
      simp only [List.length_append, List.length_cons] at hlength ⊢
      omega
    have hcell : pre.length + tokens.length + 1 + left.length =
        pre.length + (before ++ (tokens ++ after)).length + 1 := by omega
    rw [hpre] at hoffsets hfold
    simp only [List.append_assoc, List.cons_append] at hfold
    refine ⟨(tokens, left) :: cells, .cons htokens hcells, ?_, ?_⟩
    · simp only [List.map_cons, offsets, List.length_nil, Nat.add_zero, hcell, hoffsets]
    · simp only [List.map_cons, offsets, List.length_nil, Nat.add_zero, List.foldlM_cons,
        joined_cons, List.nil_append, List.append_assoc, List.cons_append] at htrim ⊢
      rw [htrim]
      exact hfold

/-- Each child finds its own tokens, whatever became of the commands before it. -/
theorem forkCommands_spaced (pre post : Bytes) {cells : List (Bytes × Bytes)}
    (h : List.Forall₂ (fun command cell => Spaced command.tokens cell.1) commands cells)
    (hroom : ∀ command ∈ commands, command.tokens.length < maxArgs) :
    ∃ after, forkCommands (pre ++ (joined 0 cells ++ post)) (offsets pre.length cells) =
      some (after, commands.map fun command => some command.exec) := by
  induction h generalizing pre with
  | nil => exact ⟨_, rfl⟩
  | cons hspaced _ ih =>
    next command cell commands cells _ =>
    obtain ⟨text, left⟩ := cell
    have hplain : ∀ token ∈ command.tokens, Plain token := fun _ => Command.tokens_plain
    have hcount := hroom command List.mem_cons_self
    obtain ⟨tokens, last, htokens, rfl, hspaces⟩ := hspaced.cells
    rw [htokens, List.length_map, List.length_append, List.length_singleton] at hcount
    have htoken : ∀ cell ∈ tokens ++ [(last, [])], IsToken space cell.1 := fun cell hcell =>
      (hplain _ (htokens ▸ List.mem_map_of_mem hcell)).isToken
    have hsplit := strtokAll_joined pre [] (left ++ (joined 0 cells ++ post)) (by decide)
      (fun cell hcell =>
        ⟨htoken cell (List.mem_append_left _ hcell), hspaces cell hcell⟩)
      (htoken (last, []) (List.mem_append_right _ List.mem_cons_self))
      (fun _ h => absurd h List.not_mem_nil) hcount
    have hargs := strings_joined pre (left ++ (joined 0 cells ++ post))
      fun cell hcell => (htoken cell hcell).noZero
    obtain ⟨after, hrest⟩ := ih
      (pre ++ (joined 0 (tokens ++ [(last, [])]) ++ left))
      fun command hc => hroom command (List.mem_cons_of_mem _ hc)
    have hpre : (pre ++ (joined 0 (tokens ++ [(last, [])]) ++ left)).length =
        pre.length + (joined space tokens ++ last).length + 1 + left.length := by
      simp only [joined_append, joined_cons, joined_nil, List.length_append, List.length_cons,
        List.length_nil, joined_length 0 space]
      omega
    rw [hpre] at hrest
    simp only [List.append_assoc, List.nil_append, List.length_nil, Nat.add_zero]
      at hsplit hargs hrest
    refine ⟨after, ?_⟩
    simp only [offsets, forkCommands, joined_cons, List.append_assoc, List.cons_append, hsplit,
      Option.bind_some, hargs, ← htokens, hrest, Option.map_some, redirections_tokens,
      List.map_cons]

theorem pieces_isToken {pieces : List Bytes} (h : List.Forall₂ Piece commands pieces) :
    ∀ piece ∈ pieces, IsToken bar piece := by
  induction h with
  | nil => exact fun _ h => absurd h List.not_mem_nil
  | cons hpiece _ ih =>
    intro piece hmem
    rcases List.mem_cons.mp hmem with rfl | hmem
    · exact hpiece.isToken
    · exact ih piece hmem

theorem parse_pieces (post : Bytes) {pieces : List Bytes} {last : Bytes}
    (hpieces : List.Forall₂ Piece commands (pieces ++ [last]))
    (hlength : commands.length < maxArgs)
    (hroom : ∀ command ∈ commands, command.tokens.length < maxArgs) :
    ∃ after, parse (joined bar (pieces.map (·, [])) ++ (last ++ 0 :: post)) =
      some (after, commands.map fun command => some command.exec) := by
  have htoken := pieces_isToken hpieces
  have hcount := hpieces.length_eq
  rw [List.length_append, List.length_singleton] at hcount
  have hplaces : (pieces.map fun p => (p, ([] : Bytes))).length + 1 < maxArgs := by
    rw [List.length_map]
    omega
  have htokens : ∀ cell ∈ pieces.map fun p => (p, ([] : Bytes)),
      IsToken bar cell.1 ∧ ∀ b ∈ cell.2, b = bar := by
    intro cell hcell
    obtain ⟨piece, hpiece, rfl⟩ := List.mem_map.mp hcell
    exact ⟨htoken piece (List.mem_append_left _ hpiece), fun _ h => absurd h List.not_mem_nil⟩
  have hsplit := strtokAll_joined [] [] post (by decide) htokens
    (htoken last (List.mem_append_right _ List.mem_cons_self))
    (fun _ h => absurd h List.not_mem_nil) hplaces
  have hcells : pieces.map (·, []) ++ [(last, [])] =
      (pieces ++ [last]).map fun p => (p, ([] : Bytes)) := by
    rw [List.map_append]
    rfl
  obtain ⟨cells, hspaced, hoffsets, htrim⟩ := trim_pieces [] post hpieces
  obtain ⟨after, hfork⟩ := forkCommands_spaced [] post hspaced hroom
  rw [hcells] at hsplit
  simp only [List.nil_append, List.length_nil, Nat.add_zero] at hsplit hoffsets htrim hfork
  have hsome : offsets 0 ((pieces ++ [last]).map fun p => (p, ([] : Bytes))) ≠ [] := by
    cases pieces <;> exact List.cons_ne_nil _ _
  refine ⟨after, ?_⟩
  rw [parse, hsplit]
  simp only [Option.bind_some, if_neg hsome, htrim]
  rw [hoffsets, hfork]

end Lines

/-- However a pipeline is written, `main` runs it as it is meant. -/
theorem pipeline_parsed (commands : List Command) (line command rest : Bytes)
    (hwritten : Written commands line) (hlength : commands.length ≤ maxArgs - 1)
    (hroom : ∀ command ∈ commands, command.tokens.length < maxArgs)
    (hfits : (line ++ [newline]).length < maxCommandLen) (hquit : line ++ [newline] ≠ quitLine) :
    ∃ after, pass command (line ++ newline :: rest) =
      .runs (line ++ [newline]) (commands.map fun command => some command.exec) after rest := by
  have hnewline : newline ∉ line := fun h => (hwritten.chars _ h).2 rfl
  have hzero : (0 : Byte) ∉ line ++ [newline] := by
    intro h
    rcases List.mem_append.mp h with h | h
    · exact (hwritten.chars _ h).1 rfl
    · exact absurd (List.mem_singleton.mp h) (by decide)
  rw [List.length_append, List.length_singleton] at hfits
  have hread : readCommand command (line ++ newline :: rest) =
      (line ++ [newline] ++ 0 :: command.drop ((line ++ [newline]).length + 1), rest) := by
    rw [readCommand, if_neg (by simp), fgets_line hnewline (by omega)]
  obtain ⟨pieces, last, hpieces, hline⟩ := hwritten.pieces
  obtain ⟨after, hparse⟩ := parse_pieces (command.drop ((line ++ [newline]).length + 1))
    hpieces (by unfold maxArgs at *; omega) hroom
  rw [← List.append_assoc, ← hline] at hparse
  refine ⟨after, ?_⟩
  rw [pass, hread, act]
  simp only [cstr_append hzero, if_neg hquit, hparse]

/-- `a  b < c |d`. -/
theorem twoCommands_parsed : ∃ after,
    pass [] [97, 32, 32, 98, 32, 60, 32, 99, 32, 124, 100, 10] =
      .runs [97, 32, 32, 98, 32, 60, 32, 99, 32, 124, 100, 10]
        [some ⟨[[97], [98]], some [99], none⟩, some ⟨[[100]], none, none⟩] after [] :=
  let letter (b : Byte) (h : (0 < b ∧ b < 128) ∧ isSpace b = false ∧ bar ≠ b ∧ b ≠ less ∧
      b ≠ greater) : Word :=
    ⟨[b], by simp, by simpa using h.1, by simpa using h.2.1, by simpa using h.2.2.1,
      by simpa using h.2.2.2.1, by simpa using h.2.2.2.2⟩
  let first : Command :=
    ⟨[letter 97 (by decide), letter 98 (by decide)], by simp, [⟨.input, letter 99 (by decide)⟩]⟩
  let second : Command := ⟨[letter 100 (by decide)], by simp, []⟩
  have hfirst : WrittenCommand first [97, 32, 32, 98, 32, 60, 32, 99, 32] :=
    ⟨[], _, [32], by simp [Blank], .more _ 1 (.more _ 0 (.more _ 0 (.last _))),
      by simp [Blank, isSpace, space, newline], rfl⟩
  have hsecond : WrittenCommand second [100] :=
    ⟨[], _, [], by simp [Blank], .last _, by simp [Blank], rfl⟩
  pipeline_parsed [first, second] _ [] [] (.more hfirst (.last hsecond)) (by decide)
    (by simp [first, second, Command.tokens, Redirection.tokens, maxArgs]) (by decide) (by decide)
end AdvancedCProjects.Terminal
