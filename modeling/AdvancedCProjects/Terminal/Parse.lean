import AdvancedCProjects.Base.Strtok
import AdvancedCProjects.Base.Text
import Mathlib.Data.List.GetD
import Mathlib.Data.List.Induction

/-!
# Parsing a command line (terminal.c:29-45, 86-139, 171-188)

`main` parses a line where it stands, in the buffer `command`: it splits the line
at the bars, trims the pieces, and splits each at the spaces when it forks the
child that runs it. The child looks for the redirections among its arguments.
-/

namespace AdvancedCProjects.Terminal
open Base

def maxCommandLen : ℕ := 256
def maxArgs : ℕ := 20

def bar : Byte := 124
def less : Byte := 60
def greater : Byte := 62

/-- `while (isspace(str[end])) end--`, with `end + 1` counted from the start of the
buffer; `none` when it reads what stands before the buffer. -/
def lastNonSpace (command : Bytes) : ℕ → Option ℕ
  | 0 => none
  | stop + 1 =>
    if isSpace (command.getD stop 0) then lastNonSpace command stop else some (stop + 1)

/-- `count` rounds of the loop `str[i - start] = str[i]`. -/
def shiftDown (start : ℕ) : ℕ → ℕ → Bytes → Bytes
  | 0, _, command => command
  | count + 1, p, command =>
    shiftDown start count (p + 1) (command.set p (command.getD (p + start) 0))

/-- `trim`; `none` when it leaves the buffer, as it does at a line that is blank. -/
def trim (command : Bytes) (str : ℕ) : Option Bytes :=
  let start := ((stringAt command str).takeWhile isSpace).length
  (lastNonSpace command (str + (stringAt command str).length)).bind fun stop =>
    if stop < start then none
    else some ((shiftDown start (stop - (str + start)) str command).set (stop - start) 0)

/-- What a child passes to `execvp` and the files it opens before. -/
structure Exec where
  args : List Bytes
  inputFile : Option Bytes
  outputFile : Option Bytes
  deriving DecidableEq

def scanFiles : List Bytes → Option Bytes → Option Bytes → Option Bytes × Option Bytes
  | [], inputFile, outputFile => (inputFile, outputFile)
  | arg :: args, inputFile, outputFile =>
    if arg = [less] then scanFiles args args.head? outputFile
    else if arg = [greater] then scanFiles args inputFile args.head?
    else scanFiles args inputFile outputFile

/-- The two scans of a child. They begin at the second argument, so without a first
one they read what was never written. -/
def redirections : List Bytes → Option Exec
  | [] => none
  | arg :: args => some {
      args := arg :: args.takeWhile fun arg => arg ≠ [less] ∧ arg ≠ [greater]
      inputFile := (scanFiles args none none).1
      outputFile := (scanFiles args none none).2 }

/-- The loop that forks; the child of a command splits it in its own copy of the
buffer, and the parent splits it as well. -/
def forkCommands (command : Bytes) : List ℕ → Option (Bytes × List (Option Exec))
  | [] => some (command, [])
  | str :: commands =>
    (strtokAll space maxArgs command str).bind fun (command, args) =>
      (forkCommands command commands).map fun (rest, execs) =>
        (rest, redirections (args.map (stringAt command)) :: execs)

/-- What `main` does with a line in `command`; `none` when it leaves an array, or
when there is no command at all and `pipefds` gets a negative size. -/
def parse (command : Bytes) : Option (Bytes × List (Option Exec)) :=
  (strtokAll bar maxArgs command 0).bind fun (command, commands) =>
    if commands = [] then none
    else (commands.foldlM trim command).bind fun command => forkCommands command commands

/-- `fgets(command, MAX_COMMAND_LEN, stdin)`, which at the end of the input leaves
the buffer as it is. -/
def readCommand (command stdin : Bytes) : Bytes × Bytes :=
  if stdin = [] then (command, [])
  else
    let (line, rest) := fgets (maxCommandLen - 1) stdin
    (line ++ 0 :: command.drop (line.length + 1), rest)

def quitLine : Bytes := [58, 113, newline]

/-- A pass of the loop of `main`; `runs` has the line, what its children do, and the
buffer and the input that are left to the next pass. -/
inductive Pass where
  | exits
  | fault
  | runs (line : Bytes) (execs : List (Option Exec)) (command stdin : Bytes)

/-- What `main` does with a line that stands in the buffer. -/
def act (command stdin : Bytes) : Pass :=
  if cstr command = quitLine then .exits
  else match parse command with
    | none => .fault
    | some (after, execs) => .runs (cstr command) execs after stdin

def pass (command stdin : Bytes) : Pass :=
  act (readCommand command stdin).1 (readCommand command stdin).2

section Trim
variable {command pre post before core after : Bytes} {b : Byte} {p stop : ℕ}

theorem lastNonSpace_le (h : lastNonSpace command p = some stop) : stop ≤ p := by
  induction p with
  | zero => contradiction
  | succ p ih =>
    rw [lastNonSpace] at h
    split at h
    · exact Nat.le_succ_of_le (ih h)
    · exact (Option.some.inj h).ge

theorem lastNonSpace_spec (h : lastNonSpace command p = some stop) :
    ∃ k, stop = k + 1 ∧ isSpace (command.getD k 0) = false := by
  induction p with
  | zero => contradiction
  | succ p ih =>
    rw [lastNonSpace] at h
    split at h
    · exact ih h
    · next hspace => exact ⟨p, (Option.some.inj h).symm, Bool.eq_false_iff.mpr hspace⟩

theorem lastNonSpace_append (hb : isSpace b = false) (hafter : ∀ c ∈ after, isSpace c = true) :
    lastNonSpace (pre ++ b :: (after ++ post)) (pre.length + 1 + after.length) =
      some (pre.length + 1) := by
  induction after using List.reverseRecOn generalizing post with
  | nil =>
    show lastNonSpace _ (pre.length + 1) = _
    rw [lastNonSpace, List.getD_append_right _ _ _ _ le_rfl, Nat.sub_self]
    simp [hb]
  | append_singleton after c ih =>
    have hlast := @ih (c :: post) fun d hd => hafter d (List.mem_append_left _ hd)
    have hindex : pre ++ b :: (after ++ [c] ++ post) = (pre ++ b :: after) ++ c :: post := by simp
    have hlen : (pre ++ b :: after).length = pre.length + 1 + after.length := by
      rw [List.length_append, List.length_cons]
      omega
    have hstop : pre.length + 1 + (after ++ [c]).length = (pre ++ b :: after).length + 1 := by
      rw [hlen, List.length_append, List.length_singleton]
      omega
    have hc := hafter c (List.mem_append_right _ List.mem_cons_self)
    rw [hindex, hstop, lastNonSpace, List.getD_append_right _ _ _ _ le_rfl, Nat.sub_self,
      List.getD_cons_zero, if_pos hc, hlen, List.append_assoc]
    exact hlast

theorem shiftDown_append (pre post before core : Bytes) : ∃ left, left.length = before.length ∧
    shiftDown before.length core.length pre.length (pre ++ (before ++ (core ++ post))) =
      pre ++ (core ++ (left ++ post)) := by
  induction core generalizing pre before with
  | nil => exact ⟨before, rfl, rfl⟩
  | cons b core ih =>
    have hget :
        (pre ++ (before ++ (b :: core ++ post))).getD (pre.length + before.length) 0 = b := by
      rw [List.getD_append_right _ _ _ _ (by omega), Nat.add_sub_cancel_left,
        List.getD_append_right _ _ _ _ le_rfl, Nat.sub_self]
      rfl
    rw [List.length_cons, shiftDown, hget]
    cases before with
    | nil =>
      obtain ⟨left, hleft, hshift⟩ := @ih (pre ++ [b]) []
      refine ⟨left, hleft, ?_⟩
      simpa using hshift
    | cons c before =>
      obtain ⟨left, hleft, hshift⟩ := @ih (pre ++ [b]) (before ++ [b])
      refine ⟨left, by simpa using hleft, ?_⟩
      simpa using hshift

structure Trimmed (core : Bytes) : Prop where
  first : ∃ b rest, core = b :: rest ∧ isSpace b = false
  last : ∃ rest b, core = rest ++ [b] ∧ isSpace b = false

theorem trim_append (pre post : Bytes) (hcore : Trimmed core)
    (hbefore : ∀ b ∈ before, isSpace b = true)
    (hafter : ∀ b ∈ after, isSpace b = true) (hzero : (0 : Byte) ∉ before ++ (core ++ after)) :
    ∃ left, core.length + 1 + left.length = (before ++ (core ++ after)).length + 1 ∧
      trim (pre ++ (before ++ (core ++ after) ++ 0 :: post)) pre.length =
        some (pre ++ (core ++ 0 :: (left ++ post))) := by
  have htext : stringAt (pre ++ (before ++ (core ++ after) ++ 0 :: post)) pre.length =
      before ++ (core ++ after) := by
    rw [stringAt_append, cstr_append hzero]
  have hstart : (before ++ (core ++ after)).takeWhile isSpace = before := by
    obtain ⟨b, rest, rfl, hb⟩ := hcore.first
    rw [List.takeWhile_append_of_pos hbefore]
    simp [hb]
  have hstop : lastNonSpace (pre ++ (before ++ (core ++ after) ++ 0 :: post))
      (pre.length + (before ++ (core ++ after)).length) =
      some (pre.length + before.length + core.length) := by
    obtain ⟨rest, b, rfl, hb⟩ := hcore.last
    have h := @lastNonSpace_append (pre ++ (before ++ rest)) (0 :: post) after b hb hafter
    have hmem : pre ++ (before ++ (rest ++ [b] ++ after) ++ 0 :: post) =
        (pre ++ (before ++ rest)) ++ b :: (after ++ 0 :: post) := by simp
    have hlen : pre.length + (before ++ (rest ++ [b] ++ after)).length =
        (pre ++ (before ++ rest)).length + 1 + after.length := by
      simp only [List.length_append, List.length_singleton]
      omega
    rw [hmem, hlen, h]
    simp [Nat.add_assoc]
  obtain ⟨moved, hmoved, hshift⟩ :=
    shiftDown_append pre (after ++ 0 :: post) before core
  -- The zero is written over the first byte behind the text, which may be the old zero.
  obtain ⟨left, hleft, hset⟩ : ∃ left, left.length = (moved ++ after).length ∧
      (moved ++ (after ++ 0 :: post)).set 0 0 = 0 :: (left ++ post) := by
    rw [← List.append_assoc]
    cases moved ++ after with
    | nil => exact ⟨[], rfl, rfl⟩
    | cons b rest => exact ⟨rest ++ [0], by simp, by simp⟩
  refine ⟨left, ?_, ?_⟩
  · simp only [hleft, hmoved, List.length_append]
    omega
  · have hcount : pre.length + before.length + core.length - (pre.length + before.length) =
        core.length := by omega
    have hend : pre.length + before.length + core.length - before.length =
        (pre ++ core).length := by
      rw [List.length_append]
      omega
    rw [trim, htext, hstart, hstop, Option.bind_some, if_neg (by omega), hcount, hend]
    simp only [List.append_assoc] at hshift ⊢
    rw [hshift, ← List.append_assoc, List.set_append_right _ _ le_rfl, Nat.sub_self, hset,
      List.append_assoc]

end Trim

/-! ### Trimming does not depend on what lies behind the line -/

section Frame
variable {command : Bytes} {start count p str : ℕ}

theorem lastNonSpace_frame (h : p ≤ command.length) (extra : Bytes) :
    lastNonSpace (command ++ extra) p = lastNonSpace command p := by
  induction p with
  | zero => rfl
  | succ p ih => rw [lastNonSpace, lastNonSpace, ih (by omega), List.getD_append _ _ _ _ (by omega)]

theorem shiftDown_length (start count p : ℕ) (command : Bytes) :
    (shiftDown start count p command).length = command.length := by
  induction count generalizing p command with
  | zero => rfl
  | succ count ih => rw [shiftDown, ih, List.length_set]

theorem shiftDown_frame (h : p + start + count ≤ command.length) (extra : Bytes) :
    shiftDown start count p (command ++ extra) = shiftDown start count p command ++ extra := by
  induction count generalizing p command with
  | zero => rfl
  | succ count ih =>
    rw [shiftDown, shiftDown, List.getD_append _ _ _ _ (by omega),
      List.set_append_left _ _ (by omega)]
    exact ih (by rw [List.length_set]; omega)

theorem trim_frame (h : Ends command) (hp : str < command.length) :
    (∀ command', trim command str = some command' →
      Ends command' ∧ command'.length = command.length) ∧
    ∀ extra, trim (command ++ extra) str = (trim command str).map (· ++ extra) := by
  have hlen := (h.stringAt hp []).2
  have hspaces := (List.takeWhile_prefix (l := stringAt command str) isSpace).length_le
  have hstring := fun extra => (h.stringAt hp extra).1
  have hlast := lastNonSpace_frame (p := str + (stringAt command str).length) hlen.le
  simp only [trim, hstring, hlast]
  generalize hstart : ((stringAt command str).takeWhile isSpace).length = start at hspaces
  cases hstop : lastNonSpace command (str + (stringAt command str).length) with
  | none => exact ⟨fun _ h => absurd h (by simp), fun _ => rfl⟩
  | some stop =>
    have hle := lastNonSpace_le hstop
    simp only [Option.bind_some]
    split
    · exact ⟨fun _ h => absurd h (by simp), fun _ => rfl⟩
    · next hroom =>
      have hcount : str + start + (stop - (str + start)) < command.length := by omega
      refine ⟨fun command' heq => ?_, fun extra => ?_⟩
      · obtain rfl := Option.some.inj heq
        rw [List.length_set, shiftDown_length]
        obtain ⟨front, rfl⟩ := h
        rw [List.length_append, List.length_singleton] at hcount
        rw [shiftDown_frame (by omega)]
        exact ⟨Ends.set ⟨_, rfl⟩ _, rfl⟩
      · rw [shiftDown_frame (by omega), List.set_append_left _ _ (by rw [shiftDown_length]; omega)]
        rfl

end Frame

end AdvancedCProjects.Terminal
