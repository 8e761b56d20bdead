import AdvancedCProjects.Base.Stream
import AdvancedCProjects.Base.Text
import Mathlib.Data.Nat.Digits.Lemmas

/-!
# One request of a session (biboServer.c:81-371)

What one pass of the loop in `handle_client` writes to the client for a
message, given what the system answers. A frame is a length, an `int`, and that
many bytes.
-/

namespace AdvancedCProjects.Bibo
open Base

/-- What the pass finds: the files `fopen` can open with their contents, the
output of `ls` if `popen` succeeds, and whether there is memory: all its calls of
`malloc` and `realloc` succeed or all fail, and no `realloc` fails behind a `malloc`
that has not. -/
structure Env where
  files : Bytes → Option Bytes
  ls : Option Bytes
  memory : Bool

/-- The pass ends, or the process does; `fault` is a write past a buffer or a
null pointer. -/
inductive Outcome where
  | returns (written : Bytes)
  | exits (written : Bytes)
  | fault
  deriving DecidableEq

/-- The two writes of a text: its length as an `int`, then as many bytes as that
`int` says; a negative count writes nothing. A call is taken to write all it is given,
though Linux moves 0x7ffff000 bytes in one at most, which is 4095 short of the largest
`int`. -/
def frameBytes (text : Bytes) : Bytes :=
  let len := wrapInt 4 text.length
  encodeInt 4 len ++ text.take len.toNat

def answer (text : Bytes) : Outcome := .returns (frameBytes text)

def sprintf (size : ℕ) (text : Bytes) (go : Bytes → Outcome) : Outcome :=
  if text.length < size then go text else .fault

def decimal (n : ℕ) : Bytes :=
  if n = 0 then [48] else (Nat.digits 10 n).reverse.map fun d => Fin.ofNat 256 (48 + d)

/-! ### help -/

/-- `strtok(NULL, " ")` after the first token. -/
def strtokNext (message : Bytes) : Option Bytes :=
  let rest := (message.dropWhile (· = space)).dropWhile (· ≠ space)
  match (rest.dropWhile (· = space)).takeWhile (· ≠ space) with
  | [] => none
  | token => some token

def helpTexts : List (Bytes × Bytes) := [
  (utf8 "help", utf8 "help [command] : Display the list of possible client requests.\n"),
  (utf8 "list", utf8 "list: Sends a request to display the list of files in Servers directory.\n(also displays the list received from the Server)\n"),
  (utf8 "quit", utf8 "quit : Send write request to Server side log file and quits\n"),
  (utf8 "killServer", utf8 "killServer : Sends a kill request to the Server.\n"),
  (utf8 "readF", utf8 "readF <file> <line #> :\n Requests to display the # line of the <file>, if no line number is given the whole contents of the file is requested (and displayed on the client side)\n"),
  (utf8 "writeF", utf8 "writeF <file> <line #> <string> : \n Request to write the content of “string” to the #th line the <file>, if the line # is not given writes to the end of file. If the file does not exists in Servers directory creates and edits the file at the same time\n"),
  (utf8 "upload", utf8 "upload <file> :\n Uploads the file from the current working directory of client to the Servers directory (beware of the cases no file in clients current working directory and file with the same name on Servers side)\n"),
  (utf8 "download", utf8 "download <file> :\n Request to receive <file> from Servers directory to client side \n")]

def unknownText (argument : Bytes) : Bytes :=
  utf8 "Unknown command : '" ++ argument ++
    utf8 "'. Type 'help' to get a list of available commands.\n"

/-- `help`; without an argument the second `sprintf` overwrites the first. -/
def help (message : Bytes) : Outcome :=
  match strtokNext message with
  | none =>
    sprintf 1000 (utf8 "Type 'help [command]' to get help on a specific command.\n") answer
  | some argument => match helpTexts.lookup argument with
    | some text => sprintf 1000 text answer
    | none => sprintf 1000 (unknownText argument) answer

/-! ### list -/

/-- `list`: an empty output leaves `result` a null pointer. -/
def list (env : Env) : Outcome :=
  match env.ls with
  | none => .exits []
  | some output => if env.memory ∧ output ≠ [] then answer (cstr output) else .fault

/-! ### readF -/

/-- `strtol` as `%d` calls it, with the result converted to an `int`. -/
def scanInt (s : Bytes) : Option ℤ :=
  let s := s.dropWhile isSpace
  let negative := s.head? = some 45
  let s := if s.head? = some 45 ∨ s.head? = some 43 then s.tail else s
  match s.takeWhile fun b => 48 ≤ b ∧ b ≤ 57 with
  | [] => none
  | digits =>
    let n : ℕ := digits.foldl (fun n b => 10 * n + (b.val - 48)) 0
    let v : ℤ := if negative then max (-n) (-2 ^ 63) else min n (2 ^ 63 - 1)
    some (wrapInt 4 v)

/-- `sscanf(command, "readF %49s %d", filename, &line_number)`. -/
def scanReadF (command : Bytes) : Option (Bytes × ℤ) :=
  let s := (command.drop 5).dropWhile isSpace
  match (s.takeWhile fun b => !isSpace b).take 49 with
  | [] => none
  | filename => some (filename, (scanInt (s.drop filename.length)).getD (-1))

/-- The loop over the lines: the line counter at its end and, if it stopped at
the line, the piece of the file that `fgets` returned. -/
def findLine (lineNumber currentLine : ℕ) (file : Bytes) : ℕ × Option Bytes :=
  match file with
  | [] => (currentLine, none)
  | b :: file =>
    if currentLine = lineNumber then (currentLine, some (fgets 1023 (b :: file)).1)
    else findLine lineNumber (currentLine + 1) (fgets 1023 (b :: file)).2
termination_by file.length
decreasing_by
  have h := fgets_rest_le 1022 file
  simp only [fgets, List.length_cons]
  split <;> dsimp only <;> omega

def readLine (lineNumber : ℕ) (file : Bytes) : Outcome :=
  match findLine lineNumber 1 file with
  | (_, some piece) =>
    sprintf 2048 (utf8 "Line " ++ decimal lineNumber ++ utf8 ": " ++ cstr piece) answer
  | (currentLine, none) =>
    if currentLine < lineNumber then
      sprintf 2048 (utf8 "The file has only " ++ decimal (currentLine - 1) ++ utf8 " lines.\n") answer
    else answer []

/-- The characters of the file as they are appended: `EOF` is the byte 255 in a
`char`, and a zero byte appends nothing. -/
def wholeFile (file : Bytes) : Bytes := (file.takeWhile (· ≠ 255)).filter (· ≠ 0)

def readF (env : Env) (command : Bytes) : Outcome :=
  match scanReadF (command.takeWhile (· ≠ newline)) with
  | none => sprintf 50 (utf8 "Invalid command format.\n") answer
  | some (filename, lineNumber) => match env.files filename with
    -- both error paths return without an answer
    | none => .returns []
    | some file =>
      if ¬ env.memory then .returns []
      else if lineNumber > 0 then readLine lineNumber.toNat file
      else answer (wholeFile file)

/-! ### The dispatcher -/

def handleMessage (env : Env) (clientPid : ℕ) (message : Bytes) : Outcome :=
  let message := cstr message
  if message = utf8 "help" then
    sprintf 100 (utf8 "Available commands: help, list, quit, killServer, readF, writeF, upload, download.\n")
      answer
  else if message.take 5 = utf8 "help " then help message
  else if message = utf8 "list" then list env
  else if message = utf8 "quit" then
    sprintf 100 (utf8 "Client " ++ decimal clientPid ++ utf8 " has disconnected.\n")
      fun text => .exits (frameBytes text)
  else if message = utf8 "killServer" then .exits []
  else if message.take 6 = utf8 "readF " then readF env message
  else if message = [] then sprintf 100 (utf8 "Empty message sent to server") answer
  else sprintf 100 (utf8 "not-command") answer

def request (message : Bytes) : Bytes := encodeInt 4 message.length ++ message

/-- One pass of the loop of `handle_client` that finds bytes in the FIFO. The
length goes into an uninitialised variable. -/
def pass (env : Env) (clientPid : ℕ) (pending : Bytes) : Option Outcome :=
  (recvInt 4 4 0 pending).bind fun (len, pending) =>
    if len = 0 then some (handleMessage env clientPid [])
    else (recv len.toNat len.toNat pending).map fun got => handleMessage env clientPid got.1

/-- `handle_response` of the client, with what it leaves in the FIFO. -/
def handleResponse (pending : Bytes) : Option (Bytes × Bytes) :=
  (recvInt 4 4 0 pending).bind fun (len, pending) =>
    if len = 0 then some ([], pending)
    else recv len.toNat len.toNat pending

/-! ### One frame -/

/-- The pass ends normally and has written one frame. -/
def OneFrame (o : Outcome) : Prop :=
  ∃ body : Bytes, body.length < 2 ^ 31 ∧ o = .returns (encodeInt 4 body.length ++ body)

theorem oneFrame_answer (text : Bytes) : OneFrame (answer text) ↔ 0 ≤ wrapInt 4 text.length := by
  obtain ⟨hle, hlt⟩ := wrapInt_natCast_le text.length
  constructor
  · rintro ⟨body, hbody, heq⟩
    simp only [answer, frameBytes, Outcome.returns.injEq] at heq
    have hlen := (List.append_inj heq (by simp only [encodeInt_length])).1
    have hdec := congrArg decodeInt hlen
    rw [decodeInt_encodeInt, decodeInt_encodeInt, wrapInt_length hbody] at hdec
    have hid : wrapInt 4 (wrapInt 4 text.length) = wrapInt 4 text.length := Int.bmod_bmod
    omega
  · intro h0
    refine ⟨text.take (wrapInt 4 text.length).toNat, ?_, ?_⟩
    · simp only [List.length_take]
      omega
    · have hlen : (text.take (wrapInt 4 text.length).toNat).length
          = (wrapInt 4 text.length).toNat := by
        simp only [List.length_take]
        omega
      rw [hlen, Int.toNat_of_nonneg h0]
      rfl

theorem oneFrame_answer_of_lt {text : Bytes} (h : text.length < 2 ^ 31) :
    OneFrame (answer text) := by
  rw [oneFrame_answer, wrapInt_length h]
  omega

theorem not_oneFrame_fault : ¬ OneFrame .fault := by
  rintro ⟨body, -, h⟩
  contradiction

theorem not_oneFrame_exits (written : Bytes) : ¬ OneFrame (.exits written) := by
  rintro ⟨body, -, h⟩
  contradiction

theorem not_oneFrame_silent : ¬ OneFrame (.returns []) := by
  rintro ⟨body, -, h⟩
  have hlen := congrArg List.length (Outcome.returns.inj h)
  simp only [List.length_nil, List.length_append, encodeInt_length] at hlen
  omega

theorem oneFrame_sprintf {size : ℕ} (hsize : size ≤ 2 ^ 31) (text : Bytes) :
    OneFrame (sprintf size text answer) ↔ text.length < size := by
  simp only [sprintf]
  split
  · next h => exact iff_of_true (oneFrame_answer_of_lt (by omega)) h
  · next h => exact iff_of_false not_oneFrame_fault h

theorem handleResponse_oneFrame {written : Bytes} (h : OneFrame (.returns written)) :
    ∃ body, handleResponse written = some (body, []) := by
  obtain ⟨body, hbody, heq⟩ := h
  cases heq
  refine ⟨body, ?_⟩
  have hlen : recvInt 4 4 0 (encodeInt 4 body.length ++ body) = some ((body.length : ℤ), body) :=
    recvInt_of_fits (by norm_num) 0 body (by omega) (by omega)
  simp only [handleResponse, hlen, Option.bind_some]
  by_cases hnil : body = []
  · subst hnil
    rfl
  · have hpos := List.length_pos_iff.mpr hnil
    rw [if_neg (by omega), Int.toNat_natCast]
    simpa using recv_whole hnil le_rfl []

theorem pass_request (env : Env) (clientPid : ℕ) {message : Bytes} (h : message.length < 2 ^ 31) :
    pass env clientPid (request message) = some (handleMessage env clientPid message) := by
  have hlen : recvInt 4 4 0 (request message) = some ((message.length : ℤ), message) :=
    recvInt_of_fits (by norm_num) 0 message (by omega) (by omega)
  simp only [pass, hlen, Option.bind_some]
  by_cases hnil : message = []
  · subst hnil
    rfl
  · have hpos := List.length_pos_iff.mpr hnil
    have hwhole := recv_whole hnil le_rfl []
    simp only [List.append_nil] at hwhole
    rw [if_neg (by omega), Int.toNat_natCast, hwhole]
    rfl

/-! ### The branches -/

theorem decimal_length {n : ℕ} (h : n < 2 ^ 31) : (decimal n).length ≤ 10 := by
  simp only [decimal]
  split
  · simp
  · have hd := (Nat.digits_length_le_iff (b := 10) (k := 10) (by norm_num) n).mpr (by omega)
    simpa using hd

theorem findLine_counter {lineNumber currentLine : ℕ} (file : Bytes)
    (h : currentLine ≤ lineNumber) : (findLine lineNumber currentLine file).1 ≤ lineNumber := by
  fun_induction findLine lineNumber currentLine file with
  | case1 => exact h
  | case2 => exact le_rfl
  | case3 currentLine b file hne ih => exact ih (by omega)

theorem findLine_piece {lineNumber currentLine : ℕ} {file piece : Bytes}
    (h : (findLine lineNumber currentLine file).2 = some piece) : piece.length ≤ 1023 := by
  fun_induction findLine lineNumber currentLine file with
  | case1 => contradiction
  | case2 b file =>
    cases h
    exact fgets_piece_le 1023 (b :: file)
  | case3 currentLine b file hne ih => exact ih h

theorem readLine_oneFrame {lineNumber : ℕ} (h0 : 0 < lineNumber) (h : lineNumber < 2 ^ 31)
    (file : Bytes) : OneFrame (readLine lineNumber file) := by
  have hcounter := findLine_counter file h0
  have hpiece := @findLine_piece lineNumber 1 file
  simp only [readLine]
  split
  · next piece heq =>
    rw [oneFrame_sprintf (by norm_num)]
    have hp := hpiece (by rw [heq])
    have hc : (cstr piece).length ≤ piece.length := (List.takeWhile_prefix _).length_le
    have hd := decimal_length h
    have h1 : (utf8 "Line ").length = 5 := by decide
    have h2 : (utf8 ": ").length = 2 := by decide
    simp only [List.length_append]
    omega
  · next currentLine heq =>
    rw [heq] at hcounter
    split
    · rw [oneFrame_sprintf (by norm_num)]
      have hd := decimal_length (n := currentLine - 1) (by dsimp only at hcounter; omega)
      have h1 : (utf8 "The file has only ").length = 18 := by decide
      have h2 : (utf8 " lines.\n").length = 8 := by decide
      simp only [List.length_append]
      omega
    · exact oneFrame_answer_of_lt (by simp)

theorem scanInt_lt {s : Bytes} {n : ℤ} (h : scanInt s = some n) : n < 2 ^ 31 := by
  simp only [scanInt] at h
  split at h
  · contradiction
  · cases h
    have hb (x : ℤ) : wrapInt 4 x < 2 ^ 31 := by
      have hb := Int.bmod_lt (x := x) (m := 256 ^ 4) (by norm_num)
      simpa [wrapInt] using hb
    exact hb _

theorem scanReadF_lt {command filename : Bytes} {n : ℤ}
    (h : scanReadF command = some (filename, n)) : n < 2 ^ 31 := by
  have hget (s : Bytes) : (scanInt s).getD (-1) < 2 ^ 31 := by
    cases hs : scanInt s with
    | none => norm_num
    | some m => exact scanInt_lt hs
  simp only [scanReadF] at h
  split at h
  · contradiction
  · cases h
    exact hget _

theorem helpTexts_fit : ∀ entry ∈ helpTexts, entry.2.length < 1000 := by decide +kernel

theorem help_oneFrame (message : Bytes) :
    OneFrame (help message) ↔ ∀ argument, strtokNext message = some argument →
      helpTexts.lookup argument = none → (unknownText argument).length < 1000 := by
  simp only [help]
  split
  · next hnone =>
    rw [oneFrame_sprintf (by norm_num)]
    refine iff_of_true (by decide) ?_
    intro argument h
    rw [hnone] at h
    contradiction
  · next argument hsome =>
    split
    · next text htext =>
      rw [oneFrame_sprintf (by norm_num)]
      obtain ⟨before, after, heq, -⟩ := List.lookup_eq_some_iff.mp htext
      have hmem : (argument, text) ∈ helpTexts := by simp [heq]
      refine iff_of_true (helpTexts_fit (argument, text) hmem) ?_
      intro argument' h hnone
      rw [hsome] at h
      cases h
      rw [htext] at hnone
      contradiction
    · next hnone =>
      rw [oneFrame_sprintf (by norm_num)]
      constructor
      · intro h argument' hsome' _
        rw [hsome] at hsome'
        cases hsome'
        exact h
      · intro h
        exact h argument hsome hnone

def Env.Listed (env : Env) : Prop :=
  ∃ output, env.ls = some output ∧ output ≠ [] ∧ env.memory = true ∧
    0 ≤ wrapInt 4 (cstr output).length

theorem list_oneFrame (env : Env) : OneFrame (list env) ↔ env.Listed := by
  simp only [list, Env.Listed]
  split
  · next hnone =>
    refine iff_of_false (not_oneFrame_exits []) ?_
    rintro ⟨output, h, -⟩
    rw [hnone] at h
    contradiction
  · next output hsome =>
    split
    · next hm =>
      rw [oneFrame_answer]
      constructor
      · intro h
        exact ⟨output, hsome, hm.2, hm.1, h⟩
      · rintro ⟨output', h, -, -, hlen⟩
        rw [hsome] at h
        cases h
        exact hlen
    · next hm =>
      refine iff_of_false not_oneFrame_fault ?_
      rintro ⟨output', h, hne, hmem, -⟩
      rw [hsome] at h
      cases h
      exact hm ⟨hmem, hne⟩

def Env.Readable (env : Env) (filename : Bytes) (lineNumber : ℤ) : Prop :=
  ∃ file, env.files filename = some file ∧ env.memory = true ∧
    (0 < lineNumber ∨ 0 ≤ wrapInt 4 (wholeFile file).length)

theorem readF_oneFrame (env : Env) (command : Bytes) :
    OneFrame (readF env command) ↔ ∀ filename lineNumber,
      scanReadF (command.takeWhile (· ≠ newline)) = some (filename, lineNumber) →
      env.Readable filename lineNumber := by
  simp only [readF]
  split
  · next hnone =>
    rw [oneFrame_sprintf (by norm_num)]
    refine iff_of_true (by decide) ?_
    intro filename lineNumber h
    rw [hnone] at h
    contradiction
  · next filename lineNumber hsome =>
    have hall : (∀ f n, scanReadF (command.takeWhile (· ≠ newline)) = some (f, n) →
        env.Readable f n) ↔ env.Readable filename lineNumber := by
      rw [hsome]
      constructor
      · intro h
        exact h filename lineNumber rfl
      · intro h f n heq
        cases heq
        exact h
    rw [hall]
    split
    · next hfile =>
      refine iff_of_false not_oneFrame_silent ?_
      rintro ⟨file, h, -⟩
      rw [hfile] at h
      contradiction
    · next file hfile =>
      have hread : env.Readable filename lineNumber ↔
          env.memory = true ∧ (0 < lineNumber ∨ 0 ≤ wrapInt 4 (wholeFile file).length) := by
        simp only [Env.Readable, hfile, Option.some.injEq, exists_eq_left']
      rw [hread]
      split
      · next hmem => exact iff_of_false not_oneFrame_silent fun h => hmem h.1
      · next hmem =>
        have hmem := not_not.mp hmem
        split
        · next hpos =>
          have hlt := scanReadF_lt hsome
          have h0 : 0 < lineNumber.toNat := by omega
          exact iff_of_true (readLine_oneFrame h0 (by omega) file) ⟨hmem, Or.inl hpos⟩
        · next hpos =>
          rw [oneFrame_answer]
          constructor
          · intro h
            exact ⟨hmem, Or.inr h⟩
          · rintro ⟨-, h | h⟩
            · exact absurd h hpos
            · exact h

/-! ### Every request -/

structure Request (message : Bytes) : Prop where
  short : message.length < 1024
  string : (0 : Byte) ∉ message
  line : newline ∉ message
  not_quit : message ≠ utf8 "quit"
  not_killServer : message ≠ utf8 "killServer"

/-- When a request is answered. -/
structure Answered (env : Env) (message : Bytes) : Prop where
  list : message = utf8 "list" → env.Listed
  help : message.take 5 = utf8 "help " → ∀ argument, strtokNext message = some argument →
    helpTexts.lookup argument = none → (unknownText argument).length < 1000
  readF : message.take 6 = utf8 "readF " → ∀ filename lineNumber,
    scanReadF message = some (filename, lineNumber) → env.Readable filename lineNumber

theorem answered_of_other {env : Env} {message : Bytes} (hlist : message ≠ utf8 "list")
    (hhelp : message.take 5 ≠ utf8 "help ") (hread : message.take 6 ≠ utf8 "readF ") :
    Answered env message where
  list h := absurd h hlist
  help h := absurd h hhelp
  readF h := absurd h hread

theorem help_not_readF {message : Bytes} (h : message.take 5 = utf8 "help ") :
    message.take 6 ≠ utf8 "readF " := by
  intro hread
  have hpre := congrArg (List.take 5) hread
  rw [List.take_take, show min 5 6 = 5 by rfl, h] at hpre
  exact absurd hpre (by decide)

theorem handleMessage_oneFrame (env : Env) (clientPid : ℕ) {message : Bytes}
    (hm : Request message) : OneFrame (handleMessage env clientPid message) ↔
      Answered env message := by
  have hline : message.takeWhile (· ≠ newline) = message := by
    rw [List.takeWhile_eq_self_iff]
    intro b hb
    exact decide_eq_true fun h => hm.line (h ▸ hb)
  simp only [handleMessage, cstr_self hm.string, if_neg hm.not_quit, if_neg hm.not_killServer]
  split
  · next h =>
    subst h
    rw [oneFrame_sprintf (by norm_num)]
    exact iff_of_true (by decide) (answered_of_other (by decide) (by decide) (by decide))
  split
  · next h =>
    rw [help_oneFrame]
    have hlist : message ≠ utf8 "list" := by
      rintro rfl
      exact absurd h (by decide)
    constructor
    · intro hhelp
      exact ⟨fun h => absurd h hlist, fun _ => hhelp, fun hread => absurd hread (help_not_readF h)⟩
    · intro ha
      exact ha.help h
  next hhelp =>
  split
  · next h =>
    rw [list_oneFrame]
    constructor
    · intro hlist
      refine ⟨fun _ => hlist, fun h => absurd h hhelp, fun hread => ?_⟩
      rw [h] at hread
      exact absurd hread (by decide)
    · intro ha
      exact ha.list h
  next hlist =>
  split
  · next h =>
    rw [readF_oneFrame, hline]
    constructor
    · intro hread
      exact ⟨fun h => absurd h hlist, fun h => absurd h hhelp, fun _ => hread⟩
    · intro ha
      exact ha.readF h
  next hread =>
  have hother : Answered env message := answered_of_other hlist hhelp hread
  split <;> rw [oneFrame_sprintf (by norm_num)] <;> exact iff_of_true (by decide) hother

/-- Exactly when a pass answers the request it reads with one frame. -/
theorem pass_oneFrame_iff (env : Env) (clientPid : ℕ) {message : Bytes} (hm : Request message) :
    (∃ o, pass env clientPid (request message) = some o ∧ OneFrame o) ↔ Answered env message := by
  have hshort := hm.short
  rw [pass_request env clientPid (by omega)]
  simp only [Option.some.injEq, exists_eq_left']
  exact handleMessage_oneFrame env clientPid hm

theorem secondLine_oneFrame :
    Request (utf8 "readF x 2") ∧
    (∃ o, pass ⟨fun _ => some (utf8 "a\nb\n"), some (utf8 "x\n"), true⟩ 11
      (request (utf8 "readF x 2")) = some o ∧ OneFrame o) := by
  have hm : Request (utf8 "readF x 2") :=
    ⟨by decide, by decide, by decide, by decide, by decide⟩
  refine ⟨hm, (pass_oneFrame_iff _ 11 hm).mpr ⟨?_, ?_, ?_⟩⟩
  · intro h
    exact absurd h (by decide)
  · intro h
    exact absurd h (by decide)
  · intro _ filename lineNumber h
    have hscan : scanReadF (utf8 "readF x 2") = some (utf8 "x", 2) := by decide
    rw [hscan] at h
    cases h
    exact ⟨_, rfl, rfl, Or.inl (by norm_num)⟩

/-- A request for a file that is not there is not answered. -/
theorem missing_file_silent :
    ¬ ∀ (env : Env) (clientPid : ℕ) (message : Bytes), Request message →
      ∃ o, pass env clientPid (request message) = some o ∧ OneFrame o := by
  intro h
  have hm : Request (utf8 "readF x") := ⟨by decide, by decide, by decide, by decide, by decide⟩
  obtain ⟨o, ho, hframe⟩ := h ⟨fun _ => none, some (utf8 "x\n"), true⟩ 11 (utf8 "readF x") hm
  have hsilent : pass ⟨fun _ => none, some (utf8 "x\n"), true⟩ 11 (request (utf8 "readF x")) =
      some (.returns []) := by
    decide
  rw [hsilent] at ho
  cases ho
  exact not_oneFrame_silent hframe

end AdvancedCProjects.Bibo
