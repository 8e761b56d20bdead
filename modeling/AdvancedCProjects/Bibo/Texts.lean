import AdvancedCProjects.Base.Writes
import AdvancedCProjects.Bibo.Reading

/-!
# The buffers of the responses (biboServer.c:81-260, 319-367)

What `sprintf`, `realloc` and `strcat` write while a response is built, and the
strings whose length is taken.
-/

namespace AdvancedCProjects.Bibo
open Base

namespace Texts

/-- The arrays, and the blocks that `malloc` and `realloc` return. -/
inductive Buffer where
  | helpMessage | quitMessage | allCommands | sentMessage | invalidFormat
  | filename | line | tempBuffer
  | lsBuffer (size : ℕ)
  | result (size : ℕ)
  | response (size : ℕ)
  deriving DecidableEq

instance : Sized Buffer where
  size
    | .helpMessage => 1000
    | .quitMessage | .allCommands | .sentMessage => 100
    | .invalidFormat | .filename => 50
    | .line => 1024
    | .tempBuffer => 2048
    | .lsBuffer size | .result size | .response size => size

/-- A write, or a `strlen` of a string; `none` is a string that nobody has made. -/
inductive Use where
  | write (w : Write Buffer)
  | strlen (s : Option Bytes)
  deriving DecidableEq

def Use.Sound : Use → Prop
  | write w => w.Inside
  | strlen s => s ≠ none

instance (u : Use) : Decidable u.Sound := by
  cases u <;> unfold Use.Sound <;> infer_instance

def Safe (us : List Use) : Prop := ∀ u ∈ us, u.Sound

instance (us : List Use) : Decidable (Safe us) := inferInstanceAs (Decidable (∀ u ∈ us, _))

/-- A string with its end, from an offset on. -/
def store (b : Buffer) (first : ℕ) (text : Bytes) : List Use :=
  (span b first (text.length + 1)).map .write

def sprintfUses (b : Buffer) (text : Bytes) : List Use := store b 0 text

def send (b : Buffer) (text : Bytes) : List Use := sprintfUses b text ++ [.strlen (some text)]

def helpUses (message : Bytes) : List Use :=
  match strtokNext message with
  | none =>
    sprintfUses .helpMessage
        (utf8 "Available commands: help, list, quit, killServer, readF, writeF, upload, download.\n") ++
      send .helpMessage (utf8 "Type 'help [command]' to get help on a specific command.\n")
  | some argument => match helpTexts.lookup argument with
    | some text => send .helpMessage text
    | none => send .helpMessage (unknownText argument)

def quitUses (clientPid : ℕ) : List Use :=
  send .quitMessage (utf8 "Client " ++ decimal clientPid ++ utf8 " has disconnected.\n")

/-- A block that was asked for. -/
def malloc (memory : Bool) (size : ℕ) : ℕ := if memory then size else 0

/-- The loop of `list` over what `fread` returns, with the bytes in `result`. -/
def resultUses (memory : Bool) : List Bytes → ℕ → List Use
  | [], _ => []
  | chunk :: chunks, resultSize =>
    (span (.lsBuffer (malloc memory 4096)) 0 chunk.length).map .write ++
      ((span (.result (malloc memory (resultSize + chunk.length + 1))) resultSize
        chunk.length).map .write ++ resultUses memory chunks (resultSize + chunk.length))

/-- `list` behind its loop. Without output there is no block, and its length is
taken all the same. -/
def resultEnd (memory : Bool) (output : Bytes) : List Use :=
  if output = [] then [.strlen none]
  else [.write ⟨.result (malloc memory (output.length + 1)), output.length⟩,
    .strlen (some (cstr output))]

def listUses (env : Env) : List Use :=
  match env.ls with
  | none => []
  | some output =>
    resultUses env.memory (cut 4096 output) 0 ++ resultEnd env.memory output

/-- `strcat` onto a response behind a `realloc` to the length of both. -/
def appendUses (response text : Bytes) : List Use :=
  [.strlen (some response), .strlen (some text)] ++
    store (.response (response.length + text.length + 1)) response.length text

def lineUses (lineNumber : ℕ) (file : Bytes) : List Use :=
  (((pieces Reading.room file).take lineNumber).flatMap (sprintfUses .line)) ++
    match findLine lineNumber 1 file with
    | (_, some piece) =>
      let text := utf8 "Line " ++ decimal lineNumber ++ utf8 ": " ++ cstr piece
      sprintfUses .tempBuffer text ++ appendUses [] text ++ [.strlen (some text)]
    | (currentLine, none) =>
      if currentLine < lineNumber then
        let text := utf8 "The file has only " ++ decimal (currentLine - 1) ++ utf8 " lines.\n"
        sprintfUses .tempBuffer text ++ appendUses [] text ++ [.strlen (some text)]
      else [.strlen (some [])]

/-- The loop over the characters; a zero byte is an empty string. -/
def fileUses : Bytes → Bytes → List Use
  | [], response => [.strlen (some response)]
  | ch :: file, response =>
    if ch = 255 then [.strlen (some response)]
    else
      let text := if ch = 0 then [] else [ch]
      .strlen (some response) :: (store (.response (response.length + 2)) response.length text ++
        fileUses file (response ++ text))

def readFUses (env : Env) (command : Bytes) : List Use :=
  match scanReadF (command.takeWhile (· ≠ newline)) with
  | none => send .invalidFormat (utf8 "Invalid command format.\n")
  | some (filename, lineNumber) => sprintfUses .filename filename ++
    match env.files filename with
    | none => []
    | some file =>
      if ¬ env.memory then []
      else .write ⟨.response 1024, 0⟩ ::
        if lineNumber > 0 then lineUses lineNumber.toNat file else fileUses file []

def handleMessageUses (env : Env) (clientPid : ℕ) (message : Bytes) : List Use :=
  let message := cstr message
  if message = utf8 "help" then
    send .allCommands
      (utf8 "Available commands: help, list, quit, killServer, readF, writeF, upload, download.\n")
  else if message.take 5 = utf8 "help " then helpUses message
  else if message = utf8 "list" then listUses env
  else if message = utf8 "quit" then quitUses clientPid
  else if message = utf8 "killServer" then []
  else if message.take 6 = utf8 "readF " then readFUses env message
  else if message = [] then send .sentMessage (utf8 "Empty message sent to server")
  else send .sentMessage (utf8 "not-command")

/-! ### The parts -/

section Parts
variable {env : Env} {us vs : List Use} {b : Buffer} {text : Bytes}

theorem safe_append : Safe (us ++ vs) ↔ Safe us ∧ Safe vs := List.forall_mem_append

theorem safe_cons {u : Use} : Safe (u :: us) ↔ u.Sound ∧ Safe us := List.forall_mem_cons

theorem safe_nil : Safe [] := fun _ hu => absurd hu List.not_mem_nil

theorem safe_map {ws : List (Write Buffer)} : Safe (ws.map .write) ↔ AllInside ws :=
  List.forall_mem_map

theorem safe_store {first : ℕ} :
    Safe (store b first text) ↔ first + text.length < Sized.size b := by
  rw [store, safe_map, span_string]

theorem safe_sprintf : Safe (sprintfUses b text) ↔ text.length < Sized.size b := by
  rw [sprintfUses, safe_store, Nat.zero_add]

theorem safe_strlen (s : Bytes) : Safe [.strlen (some s)] :=
  safe_cons.mpr ⟨Option.some_ne_none s, safe_nil⟩

theorem safe_send : Safe (send b text) ↔ text.length < Sized.size b := by
  rw [send, safe_append, safe_sprintf, and_iff_left (safe_strlen text)]

theorem unknownText_length (argument : Bytes) :
    (unknownText argument).length = argument.length + 71 := by
  have hfront : (utf8 "Unknown command : '").length = 19 := by decide
  have hback : (utf8 "'. Type 'help' to get a list of available commands.\n").length = 52 := by
    decide
  simp only [unknownText, List.length_append]
  omega

theorem help_safe (message : Bytes) : Safe (helpUses message) ↔
    ∀ argument, strtokNext message = some argument → helpTexts.lookup argument = none →
      argument.length ≤ 928 := by
  unfold helpUses
  cases htoken : strtokNext message with
  | none =>
    dsimp only
    rw [safe_append, safe_sprintf, safe_send]
    exact iff_of_true (by decide) fun argument h => absurd h (by simp)
  | some argument =>
    simp only [Option.some.injEq, forall_eq']
    cases hlookup : helpTexts.lookup argument with
    | some text =>
      obtain ⟨before, after, heq, -⟩ := List.lookup_eq_some_iff.mp hlookup
      have hmem : (argument, text) ∈ helpTexts := by simp [heq]
      dsimp only
      rw [safe_send]
      exact iff_of_true (helpTexts_fit (argument, text) hmem) fun h => absurd h (by simp)
    | none =>
      simp only [forall_const]
      rw [safe_send, unknownText_length]
      simp only [Sized.size]
      omega

theorem quit_safe {clientPid : ℕ} (h : clientPid < 2 ^ 31) : Safe (quitUses clientPid) := by
  have hdigits := decimal_length h
  have hfront : (utf8 "Client ").length = 7 := by decide
  have hback : (utf8 " has disconnected.\n").length = 19 := by decide
  rw [quitUses, safe_send]
  simp only [List.length_append, Sized.size]
  omega

theorem result_safe (chunks : List Bytes) (resultSize : ℕ)
    (h : ∀ chunk ∈ chunks, chunk.length ≤ 4096) : Safe (resultUses true chunks resultSize) := by
  induction chunks generalizing resultSize with
  | nil => exact safe_nil
  | cons chunk chunks ih =>
    have hchunk := h chunk List.mem_cons_self
    have hrest := ih (resultSize + chunk.length) fun c hc => h c (List.mem_cons_of_mem _ hc)
    have hread : Safe ((span (.lsBuffer (malloc true 4096)) 0 chunk.length).map .write) := by
      rw [safe_map, span_inside]
      simp only [Sized.size, malloc, if_true]
      omega
    have hcopy : Safe ((span (.result (malloc true (resultSize + chunk.length + 1))) resultSize
        chunk.length).map .write) := by
      rw [safe_map, span_inside]
      simp only [Sized.size, malloc, if_true]
      omega
    exact safe_append.mpr ⟨hread, safe_append.mpr ⟨hcopy, hrest⟩⟩

theorem resultEnd_safe (memory : Bool) (output : Bytes) :
    Safe (resultEnd memory output) ↔ output ≠ [] ∧ memory = true := by
  unfold resultEnd
  by_cases hnil : output = []
  · rw [if_pos hnil]
    exact iff_of_false (fun h => (safe_cons.mp h).1 rfl) fun h => h.1 hnil
  · have hwrite : (Use.write ⟨.result (malloc memory (output.length + 1)), output.length⟩).Sound ↔
        memory = true := by
      simp only [Use.Sound, Write.Inside, Sized.size, malloc]
      cases memory with
      | true =>
        rw [if_pos rfl]
        exact iff_of_true (by omega) rfl
      | false =>
        rw [if_neg Bool.false_ne_true]
        simp
    rw [if_neg hnil, safe_cons, hwrite, and_iff_left (safe_strlen _), and_iff_right hnil]

theorem list_safe : Safe (listUses env) ↔
    ∀ output, env.ls = some output → output ≠ [] ∧ env.memory = true := by
  unfold listUses
  cases env.ls with
  | none => exact iff_of_true safe_nil fun output h => absurd h (by simp)
  | some output =>
    simp only [Option.some.injEq, forall_eq', safe_append, resultEnd_safe]
    refine and_iff_right_of_imp fun h => ?_
    rw [h.2]
    exact result_safe _ 0 fun chunk hchunk => cut_piece_le (by decide) hchunk

theorem append_safe (response : Bytes) : Safe (appendUses response text) := by
  rw [appendUses, safe_append, safe_store]
  refine ⟨safe_cons.mpr ⟨Option.some_ne_none _, safe_strlen _⟩, ?_⟩
  simp only [Sized.size]
  omega

theorem temp_safe (h : text.length < 2048) :
    Safe (sprintfUses .tempBuffer text ++ appendUses [] text ++ [.strlen (some text)]) := by
  rw [safe_append, safe_append, safe_sprintf]
  exact ⟨⟨h, append_safe []⟩, safe_strlen text⟩

theorem line_safe {lineNumber : ℕ} (h0 : 0 < lineNumber) (h : lineNumber < 2 ^ 31)
    (file : Bytes) : Safe (lineUses lineNumber file) := by
  have hone := readLine_oneFrame h0 h file
  unfold readLine at hone
  unfold lineUses
  rw [safe_append]
  constructor
  · intro u hu
    obtain ⟨piece, hpiece, hu⟩ := List.mem_flatMap.mp hu
    have hle := Reading.pieces_nonempty_le (List.mem_of_mem_take hpiece)
    have hfits : Safe (sprintfUses .line piece) := by
      rw [safe_sprintf]
      simp only [Sized.size, Reading.room] at hle ⊢
      omega
    exact hfits u hu
  · cases heq : findLine lineNumber 1 file with
    | mk currentLine found =>
      rw [heq] at hone
      dsimp only at hone ⊢
      cases found with
      | some piece =>
        rw [oneFrame_sprintf (by norm_num)] at hone
        exact temp_safe hone
      | none =>
        dsimp only at hone ⊢
        split at hone
        · next hless =>
          rw [oneFrame_sprintf (by norm_num)] at hone
          rw [if_pos hless]
          exact temp_safe hone
        · next hless =>
          rw [if_neg hless]
          exact safe_strlen []

theorem file_safe (file response : Bytes) : Safe (fileUses file response) := by
  induction file generalizing response with
  | nil => exact safe_strlen response
  | cons ch file ih =>
    unfold fileUses
    split
    · exact safe_strlen response
    · have hlen : (if ch = 0 then [] else [ch]).length ≤ 1 := by split <;> simp
      have hstore : Safe (store (.response (response.length + 2)) response.length
          (if ch = 0 then [] else [ch])) := by
        rw [safe_store]
        simp only [Sized.size]
        omega
      exact safe_cons.mpr ⟨Option.some_ne_none _, safe_append.mpr ⟨hstore, ih _⟩⟩

/-- The last string whose length is taken is the response. -/
theorem fileUses_last (file response : Bytes) :
    (fileUses file response).getLast? = some (.strlen (some (response ++ wholeFile file))) := by
  induction file generalizing response with
  | nil => simp [fileUses, wholeFile]
  | cons ch file ih =>
    unfold fileUses
    split
    · next hend => simp [wholeFile, hend]
    · next hgo =>
      have hrest := ih (response ++ if ch = 0 then [] else [ch])
      have hwhole : wholeFile (ch :: file) = (if ch = 0 then [] else [ch]) ++ wholeFile file := by
        by_cases hzero : ch = 0
        · simp [wholeFile, hzero]
        · simp [wholeFile, hzero, hgo]
      rw [hwhole, ← List.append_assoc, ← hrest, List.getLast?_cons, List.getLast?_append, hrest]
      rfl

theorem scanReadF_name_le {command filename : Bytes} {lineNumber : ℤ}
    (h : scanReadF command = some (filename, lineNumber)) : filename.length ≤ 49 := by
  simp only [scanReadF] at h
  split at h
  · contradiction
  · next name _ =>
    cases h
    exact List.length_take_le _ _

theorem readF_safe (command : Bytes) : Safe (readFUses env command) := by
  unfold readFUses
  cases hscan : scanReadF (command.takeWhile (· ≠ newline)) with
  | none =>
    dsimp only
    rw [safe_send]
    decide
  | some read =>
    obtain ⟨filename, lineNumber⟩ := read
    have hlt := scanReadF_lt hscan
    have hname : filename.length < 50 := Nat.lt_succ_of_le (scanReadF_name_le hscan)
    dsimp only
    rw [safe_append, safe_sprintf]
    refine ⟨hname, ?_⟩
    cases env.files filename with
    | none => exact safe_nil
    | some file =>
      dsimp only
      split
      · exact safe_nil
      · refine safe_cons.mpr ⟨⟨le_rfl, by decide⟩, ?_⟩
        split
        · exact line_safe (by omega) (by omega) file
        · exact file_safe file []

end Parts

/-! ### Every request -/

/-- `list` gets some output and memory, and an unknown command is short enough for
the text about it. -/
structure BuffersFit (env : Env) (message : Bytes) : Prop where
  list : message = utf8 "list" → ∀ output, env.ls = some output →
    output ≠ [] ∧ env.memory = true
  help : message.take 5 = utf8 "help " → ∀ argument, strtokNext message = some argument →
    helpTexts.lookup argument = none → argument.length ≤ 928

section Requests
variable {env : Env} {clientPid : ℕ} {message text : Bytes} {b : Buffer}

theorem buffersFit_of_other (hlist : message ≠ utf8 "list")
    (hhelp : message.take 5 ≠ utf8 "help ") : BuffersFit env message where
  list h := absurd h hlist
  help h := absurd h hhelp

/-- `sprintf` of the other model leaves its buffer where this one does. -/
theorem sprintf_fault {size : ℕ} (hsize : Sized.size b = size) :
    sprintf size text answer = .fault ↔ ¬ Safe (send b text) := by
  rw [safe_send, hsize, sprintf]
  split
  · next h => exact iff_of_false Outcome.noConfusion (not_not.mpr h)
  · next h => exact iff_of_true rfl h

theorem help_fault (message : Bytes) : help message = .fault ↔ ¬ Safe (helpUses message) := by
  unfold help helpUses
  cases strtokNext message with
  | none =>
    dsimp only
    rw [safe_append, and_iff_right (safe_sprintf.mpr (by decide))]
    exact sprintf_fault rfl
  | some argument =>
    dsimp only
    cases helpTexts.lookup argument with
    | some text =>
      dsimp only
      exact sprintf_fault rfl
    | none =>
      dsimp only
      exact sprintf_fault rfl

theorem list_fault (env : Env) : list env = .fault ↔ ¬ Safe (listUses env) := by
  rw [list_safe, list]
  cases env.ls with
  | none => simp
  | some output =>
    simp only [Option.some.injEq, forall_eq']
    split
    · next h => exact iff_of_false Outcome.noConfusion (not_not.mpr ⟨h.2, h.1⟩)
    · next h => exact iff_of_true rfl fun hfits => h ⟨hfits.2, hfits.1⟩

theorem readF_not_fault (env : Env) (command : Bytes) : readF env command ≠ .fault := by
  unfold readF
  split
  · rw [sprintf, if_pos (by decide)]
    exact Outcome.noConfusion
  · next filename lineNumber hscan =>
    have hlt := scanReadF_lt hscan
    split
    · exact Outcome.noConfusion
    · next file _ =>
      split
      · exact Outcome.noConfusion
      split
      · next hpos =>
        intro hfault
        have hone : OneFrame (readLine lineNumber.toNat file) :=
          readLine_oneFrame (by omega) (by omega) file
        rw [hfault] at hone
        exact not_oneFrame_fault hone
      · exact Outcome.noConfusion

end Requests

/-- While a request is answered every text stays in its buffer and every string
whose length is taken is there, exactly if the buffers fit. -/
theorem uses_safe_iff (env : Env) (clientPid : ℕ) (message : Bytes) (hpid : clientPid < 2 ^ 31) :
    Safe (handleMessageUses env clientPid message) ↔ BuffersFit env (cstr message) := by
  unfold handleMessageUses
  generalize cstr message = text
  dsimp only
  split
  · next h =>
    subst h
    rw [safe_send]
    exact iff_of_true (by decide) (buffersFit_of_other (by decide) (by decide))
  split
  · next h =>
    rw [help_safe]
    have hlist : text ≠ utf8 "list" := by
      rintro rfl
      exact absurd h (by decide)
    exact ⟨fun hfits => ⟨fun heq => absurd heq hlist, fun _ => hfits⟩, fun hfits => hfits.help h⟩
  next hhelp =>
  split
  · next h =>
    rw [list_safe]
    exact ⟨fun hfits => ⟨fun _ => hfits, fun heq => absurd heq hhelp⟩, fun hfits => hfits.list h⟩
  next hlist =>
  have hother : BuffersFit env text := buffersFit_of_other hlist hhelp
  split
  · exact iff_of_true (quit_safe hpid) hother
  split
  · exact iff_of_true safe_nil hother
  split
  · exact iff_of_true (readF_safe text) hother
  split
  · rw [safe_send]
    exact iff_of_true (by decide) hother
  · rw [safe_send]
    exact iff_of_true (by decide) hother

/-- A pass of the other model fails exactly where a buffer is left. -/
theorem fault_iff (env : Env) (clientPid : ℕ) (message : Bytes) (hpid : clientPid < 2 ^ 31) :
    handleMessage env clientPid message = .fault ↔
      ¬ Safe (handleMessageUses env clientPid message) := by
  unfold handleMessage handleMessageUses
  generalize cstr message = text
  dsimp only
  split
  · exact sprintf_fault rfl
  split
  · exact help_fault text
  split
  · exact list_fault env
  split
  · have hquit := quit_safe hpid
    have hfits := hquit
    rw [quitUses, safe_send] at hfits
    simp only [Sized.size] at hfits
    rw [sprintf, if_pos hfits]
    exact iff_of_false Outcome.noConfusion (not_not.mpr hquit)
  split
  · exact iff_of_false Outcome.noConfusion (not_not.mpr safe_nil)
  split
  · exact iff_of_false (readF_not_fault env text) (not_not.mpr (readF_safe text))
  split
  · exact sprintf_fault rfl
  · exact sprintf_fault rfl

theorem helpList_safe :
    Safe (handleMessageUses ⟨fun _ => none, none, true⟩ 11 (utf8 "help list")) := by
  have hfits : BuffersFit ⟨fun _ => none, none, true⟩ (cstr (utf8 "help list")) := by
    refine ⟨fun h => absurd h (by decide), fun _ argument hargument hnone => ?_⟩
    have htoken : strtokNext (cstr (utf8 "help list")) = some (utf8 "list") := by decide
    rw [htoken] at hargument
    obtain rfl := Option.some.inj hargument
    exact absurd hnone (by decide +kernel)
  exact (uses_safe_iff _ 11 (utf8 "help list") (by decide)).mpr hfits

def longWord : Bytes := utf8 "help " ++ List.replicate 929 97

def ResponsesFit : Prop :=
  ∀ (env : Env) (clientPid : ℕ) (message : Bytes), clientPid < 2 ^ 31 → message.length < 1024 →
    Safe (handleMessageUses env clientPid message)

/-- `help` with such a word leaves `help_message`. -/
theorem longWord_unsafe : ¬ ResponsesFit := by
  intro h
  have hsafe := h ⟨fun _ => none, none, true⟩ 11 longWord (by decide) (by decide +kernel)
  have hhelp : handleMessageUses ⟨fun _ => none, none, true⟩ 11 longWord = helpUses longWord := by
    have hcstr : cstr longWord = longWord := by decide +kernel
    unfold handleMessageUses
    rw [hcstr]
    dsimp only
    rw [if_neg (by decide +kernel), if_pos (by decide +kernel)]
  rw [hhelp, help_safe] at hsafe
  have hle := hsafe (List.replicate 929 97) (by decide +kernel) (by decide +kernel)
  rw [List.length_replicate] at hle
  omega

end Texts
end AdvancedCProjects.Bibo
