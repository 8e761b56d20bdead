import AdvancedCProjects.Base.Lines
import AdvancedCProjects.Terminal.Parse

/-!
# The input loop (terminal.c:56-66, 86-106, 274-279)

`main` acts on what `fgets` leaves in the buffer: a whole line, a part of one, or,
at the end of the input, what it made of the last line. The same when `fgets` fails:
the handler of SIGCHLD is installed without SA_RESTART, so a child that ends late
interrupts it.
-/

namespace AdvancedCProjects.Terminal
open Base

/-! ### Parsing does not depend on what lies behind the line -/

section Frame
variable {command : Bytes}

theorem trimAll_frame {commands : List ℕ} (h : Ends command)
    (hp : ∀ str ∈ commands, str < command.length) :
    (∀ command', commands.foldlM trim command = some command' →
      Ends command' ∧ command'.length = command.length) ∧
    ∀ extra, commands.foldlM trim (command ++ extra) =
      (commands.foldlM trim command).map (· ++ extra) := by
  induction commands generalizing command with
  | nil =>
    refine ⟨fun command' heq => ?_, fun _ => rfl⟩
    obtain rfl := Option.some.inj heq
    exact ⟨h, rfl⟩
  | cons str commands ih =>
    obtain ⟨hends, hframe⟩ := trim_frame h (hp str List.mem_cons_self)
    simp only [List.foldlM_cons, hframe]
    cases hstep : trim command str with
    | none => exact ⟨fun _ h => absurd h (by simp), fun _ => rfl⟩
    | some next =>
      obtain ⟨hends, hlength⟩ := hends next hstep
      obtain ⟨hrest, hframe⟩ := ih hends fun s hs => hlength ▸ hp s (List.mem_cons_of_mem _ hs)
      refine ⟨fun command' heq => ?_, hframe⟩
      obtain ⟨hends', hlength'⟩ := hrest command' heq
      exact ⟨hends', hlength'.trans hlength⟩

theorem forkCommands_frame {commands : List ℕ} (h : Ends command)
    (hp : ∀ str ∈ commands, str < command.length) (extra : Bytes) :
    forkCommands (command ++ extra) commands =
      (forkCommands command commands).map fun result => (result.1 ++ extra, result.2) := by
  induction commands generalizing command with
  | nil => rfl
  | cons str commands ih =>
    obtain ⟨hsplit, hframe⟩ := h.strtokAll (hp str List.mem_cons_self) space maxArgs
    simp only [forkCommands, hframe]
    cases hstep : strtokAll space maxArgs command str with
    | none => rfl
    | some result =>
      obtain ⟨next, args⟩ := result
      obtain ⟨hends, hlength, hargs⟩ := hsplit next args hstep
      have hrest := ih hends fun s hs => hlength ▸ hp s (List.mem_cons_of_mem _ hs)
      have hstrings : args.map (stringAt (next ++ extra)) = args.map (stringAt next) :=
        List.map_congr_left fun arg harg => (hends.stringAt (hlength ▸ hargs arg harg) extra).1
      simp only [Option.map_some, Option.bind_some, hrest, hstrings]
      cases forkCommands next commands <;> rfl

theorem forkCommands_keeps {Q : Bytes → Prop} {commands : List ℕ} {command' : Bytes}
    {execs : List (Option Exec)} (hQ : ∀ mem i, Q mem → Q (mem.set i 0))
    (h : forkCommands command commands = some (command', execs)) (hcommand : Q command) :
    Q command' := by
  induction commands generalizing command execs with
  | nil =>
    obtain ⟨rfl, -⟩ := Prod.mk.inj (Option.some.inj h)
    exact hcommand
  | cons str commands ih =>
    obtain ⟨⟨next, args⟩, hsplit, hrest⟩ := Option.bind_eq_some_iff.mp h
    obtain ⟨⟨last, execs'⟩, hlast, heq⟩ := Option.map_eq_some_iff.mp hrest
    obtain ⟨rfl, -⟩ := Prod.mk.inj heq
    exact ih hlast (strtokAll_keeps (fun mem i _ => hQ mem i) hsplit hcommand)

theorem parse_ends (h : Ends command) :
    (∀ result, parse command = some result → Ends result.1) ∧
    ∀ extra, parse (command ++ extra) =
      (parse command).map fun result => (result.1 ++ extra, result.2) := by
  have hpos : 0 < command.length := by
    obtain ⟨front, rfl⟩ := h
    simp
  obtain ⟨hsplit, hframe⟩ := h.strtokAll hpos bar maxArgs
  simp only [parse, hframe]
  cases hstep : strtokAll bar maxArgs command 0 with
  | none => exact ⟨fun _ h => absurd h (by simp), fun _ => rfl⟩
  | some result =>
    obtain ⟨next, commands⟩ := result
    obtain ⟨hends, hlength, hcommands⟩ := hsplit next commands hstep
    have hin : ∀ str ∈ commands, str < next.length := fun s hs => hlength ▸ hcommands s hs
    obtain ⟨htrim, hframe⟩ := trimAll_frame hends hin
    simp only [Option.map_some, Option.bind_some, hframe]
    split
    · exact ⟨fun _ h => absurd h (by simp), fun _ => rfl⟩
    · cases hfold : commands.foldlM trim next with
      | none => exact ⟨fun _ h => absurd h (by simp), fun _ => rfl⟩
      | some trimmed =>
        obtain ⟨hends, hlength⟩ := htrim trimmed hfold
        simp only [Option.map_some, Option.bind_some]
        refine ⟨fun result h => ?_, fun extra => ?_⟩
        · exact forkCommands_keeps (fun _ i h => Ends.set h i) h hends
        · exact forkCommands_frame hends (fun s hs => hlength ▸ hin s hs) extra

theorem parse_frame (line extra : Bytes) : parse (line ++ 0 :: extra) =
    (parse (line ++ [0])).map fun result => (result.1 ++ extra, result.2) := by
  have hends : Ends (line ++ [0]) := ⟨line, rfl⟩
  rw [← (parse_ends hends).2 extra, List.append_assoc, List.singleton_append]

end Frame

/-! ### What parsing leaves in the buffer -/

section Leftover
variable {command command' line extra skip text : Bytes} {commands : List ℕ}
  {execs : List (Option Exec)} {start count p str : ℕ}

theorem trim_writes (h : trim command str = some command') :
    ∃ start count i, command' = (shiftDown start count str command).set i 0 := by
  unfold trim at h
  obtain ⟨stop, -, hstop⟩ := Option.bind_eq_some_iff.mp h
  split at hstop
  · contradiction
  · exact ⟨_, _, _, (Option.some.inj hstop).symm⟩

theorem trimAll_keeps {Q : Bytes → Prop} (hQ : ∀ mem i, Q mem → Q (mem.set i 0))
    (hshift : ∀ mem start count str, str ∈ commands → Q mem → Q (shiftDown start count str mem))
    (h : commands.foldlM trim command = some command') (hcommand : Q command) : Q command' := by
  induction commands generalizing command with
  | nil =>
    obtain rfl := Option.some.inj h
    exact hcommand
  | cons str commands ih =>
    obtain ⟨next, hstep, hrest⟩ := Option.bind_eq_some_iff.mp h
    obtain ⟨start, count, i, rfl⟩ := trim_writes hstep
    refine ih (fun mem start count s hs => hshift mem start count s (List.mem_cons_of_mem _ hs))
      hrest (hQ _ i (hshift _ start count str List.mem_cons_self hcommand))

theorem shiftDown_cstr (hp : (cstr command).length < p) (start count : ℕ) :
    cstr (shiftDown start count p command) = cstr command := by
  induction count generalizing p command with
  | zero => rfl
  | succ count ih =>
    have hset := cstr_set_behind hp (command.getD (p + start) 0)
    rw [shiftDown, ih (by rw [hset]; omega), hset]

/-- A newline stands only at the end. -/
def IsLine (line : Bytes) : Prop :=
  ∃ front, newline ∉ front ∧ (line = front ∨ line = front ++ [newline])

theorem IsLine.of_front (h : IsLine line) (hp : command <+: line) : IsLine command := by
  obtain ⟨front, hfront, rfl | rfl⟩ := h
  · exact ⟨command, fun hc => hfront (hp.subset hc), .inl rfl⟩
  · rcases List.prefix_concat_iff.mp hp with rfl | hp
    · exact ⟨front, hfront, .inr rfl⟩
    · exact ⟨command, fun hc => hfront (hp.subset hc), .inl rfl⟩

theorem cstr_set_end (core post : Bytes) :
    cstr ((core ++ post).set core.length 0) <+: core := by
  rw [List.set_append_right _ _ le_rfl, Nat.sub_self]
  cases post with
  | nil =>
    rw [List.set_nil, List.append_nil]
    exact List.takeWhile_prefix _
  | cons b post =>
    rw [List.set_cons_zero, cstr_append_zero]
    exact List.takeWhile_prefix _

theorem cstr_split (h : cstr command = skip ++ text) :
    ∃ post, command = skip ++ (text ++ post) ∧ stringAt command skip.length = text := by
  obtain ⟨post, hpost⟩ : cstr command <+: command := List.takeWhile_prefix _
  have hzero : (0 : Byte) ∉ skip := by
    intro hmem
    have hin : (0 : Byte) ∈ cstr command := h ▸ List.mem_append_left text hmem
    have := List.mem_takeWhile_imp hin
    simp at this
  rw [h, List.append_assoc] at hpost
  refine ⟨post, hpost.symm, ?_⟩
  rw [← hpost, cstr_append_of_noZero hzero] at h
  rw [← hpost, stringAt_append]
  exact List.append_cancel_left h

/-- What trimming leaves of a piece has no newline, since its last byte is no white space. -/
theorem trim_first (hcommand : cstr command = skip ++ text) (hskip : newline ∉ skip)
    (hline : IsLine (skip ++ text)) (h : trim command skip.length = some command') :
    newline ∉ cstr command' ∧ (cstr command').length ≤ (cstr command).length := by
  obtain ⟨post, hsplit, htext⟩ := cstr_split hcommand
  unfold trim at h
  rw [htext] at h
  obtain ⟨stop, hstop, heq⟩ := Option.bind_eq_some_iff.mp h
  have hspaces := (List.takeWhile_prefix (l := text) isSpace).length_le
  generalize (text.takeWhile isSpace).length = start at hspaces heq
  split at heq
  · contradiction
  next hroom =>
  obtain rfl := Option.some.inj heq
  have hle := lastNonSpace_le hstop
  rw [hcommand, List.length_append]
  by_cases hblank : stop ≤ skip.length + start
  · -- Nothing is moved, and the zero falls on the bars or just behind them.
    rw [Nat.sub_eq_zero_of_le hblank, shiftDown, cstr_set_take, hcommand,
      List.take_append_of_le_length (by omega)]
    refine ⟨fun hmem => hskip (List.mem_of_mem_take hmem), ?_⟩
    rw [List.length_take]
    omega
  obtain ⟨k, hk, hspace⟩ := lastNonSpace_spec hstop
  obtain ⟨kept, hkept⟩ : ∃ kept, text.take (stop - skip.length) = kept := ⟨_, rfl⟩
  have hlength : kept.length = stop - skip.length := by
    rw [← hkept, List.length_take]
    omega
  have hfront : skip ++ kept = (skip ++ text).take stop := by
    rw [List.take_append, List.take_of_length_le (by omega), hkept]
  have hnewline : newline ∉ skip ++ kept := by
    rw [hfront]
    obtain ⟨front, hfront, hwhole | hwhole⟩ := hline
    · rw [hwhole]
      exact fun hmem => hfront (List.mem_of_mem_take hmem)
    · have hne : k ≠ front.length := by
        rintro rfl
        rw [hsplit, ← List.append_assoc, hwhole, List.append_assoc,
          List.getD_append_right _ _ _ _ le_rfl, Nat.sub_self, List.singleton_append,
          List.getD_cons_zero] at hspace
        exact absurd hspace (by decide)
      have hlast := congrArg List.length hwhole
      rw [List.length_append, List.length_append, List.length_singleton] at hlast
      rw [hwhole, List.take_append_of_le_length (by omega)]
      exact fun hmem => hfront (List.mem_of_mem_take hmem)
  have hpieces : command = skip ++ (kept.take start ++
      (kept.drop start ++ (text.drop (stop - skip.length) ++ post))) := by
    rw [← List.append_assoc (kept.take start), List.take_append_drop, ← List.append_assoc kept,
      ← hkept, List.take_append_drop, hsplit]
  obtain ⟨left, -, hshift⟩ := shiftDown_append skip (text.drop (stop - skip.length) ++ post)
    (kept.take start) (kept.drop start)
  have hbefore : (kept.take start).length = start := by
    rw [List.length_take]
    omega
  have hcore : (kept.drop start).length = stop - (skip.length + start) := by
    rw [List.length_drop]
    omega
  have hend : stop - start = (skip ++ kept.drop start).length := by
    rw [List.length_append]
    omega
  rw [hbefore, hcore, ← hpieces, ← List.append_assoc] at hshift
  have hshort := cstr_set_end (skip ++ kept.drop start)
    (left ++ (text.drop (stop - skip.length) ++ post))
  rw [← hend, ← hshift] at hshort
  refine ⟨fun hmem => hnewline ?_, ?_⟩
  · rcases List.mem_append.mp (hshort.subset hmem) with hmem | hmem
    · exact List.mem_append_left _ hmem
    · exact List.mem_append_right _ (List.mem_of_mem_drop hmem)
  · have := hshort.length_le
    omega

theorem strtokAll_end {room p : ℕ} (hend : stringAt extra p = [])
    (h : strtokAll bar room extra p = some (command, commands)) : commands = [] := by
  cases room with
  | zero => contradiction
  | succ room =>
    rw [strtokAll, strtok_end hend fun _ h => absurd h List.not_mem_nil] at h
    exact (Prod.mk.inj (Option.some.inj h)).2.symm

/-- The pieces of a line: the first begins behind the bars, and the others behind
the end of the first. -/
theorem strtokAll_line {room : ℕ} (hzero : (0 : Byte) ∉ line)
    (h : strtokAll bar room (line ++ 0 :: extra) 0 = some (command, commands)) :
    commands = [] ∨ ∃ skip piece later, commands = skip.length :: later ∧
      (∀ b ∈ skip, b = bar) ∧ cstr command = skip ++ piece ∧ skip ++ piece <+: line ∧
      ∀ str ∈ later, (cstr command).length < str := by
  obtain ⟨skip, hskip⟩ : ∃ skip, line.takeWhile (· = bar) = skip := ⟨_, rfl⟩
  obtain ⟨text, htext⟩ : ∃ text, line.dropWhile (· = bar) = text := ⟨_, rfl⟩
  have hline : line = skip ++ text := by
    rw [← hskip, ← htext, List.takeWhile_append_dropWhile]
  have hbars : ∀ b ∈ skip, b = bar := by
    intro b hb
    have := List.mem_takeWhile_imp (hskip ▸ hb)
    simpa using this
  have hwhole : cstr (line ++ 0 :: extra) = line := cstr_append hzero _
  obtain ⟨room, rfl⟩ : ∃ r, room = r + 1 := by
    cases room with
    | zero => contradiction
    | succ room => exact ⟨room, rfl⟩
  cases htexts : text with
  | nil =>
    rw [htexts, List.append_nil] at hline
    have hend : strtok bar (line ++ 0 :: extra) 0 = _ := strtok_end (hwhole.trans hline) hbars
    rw [strtokAll, hend] at h
    exact .inl (Prod.mk.inj (Option.some.inj h)).2.symm
  | cons b rest =>
    have hb : b ≠ bar := by
      have hhead := List.head?_dropWhile_not (fun c => decide (c = bar)) line
      rw [htext, htexts] at hhead
      simpa using hhead
    obtain ⟨piece, hpiece⟩ : ∃ piece, text.takeWhile (· ≠ bar) = piece := ⟨_, rfl⟩
    obtain ⟨tail, htail⟩ : ∃ tail, text.dropWhile (· ≠ bar) = tail := ⟨_, rfl⟩
    have hsplit : line = skip ++ (piece ++ tail) := by
      rw [hline, ← hpiece, ← htail, List.takeWhile_append_dropWhile]
    have hwithin : skip ++ piece <+: line := ⟨tail, by rw [hsplit, List.append_assoc]⟩
    have hfront : (0 : Byte) ∉ skip ++ piece := fun hmem => hzero (hwithin.subset hmem)
    have htoken : IsToken bar piece := by
      refine ⟨?_, fun hmem => ?_, fun hmem => hfront (List.mem_append_right _ hmem)⟩
      · rw [← hpiece, htexts, List.takeWhile_cons, if_pos (decide_eq_true hb)]
        exact List.cons_ne_nil _ _
      · have := List.mem_takeWhile_imp (hpiece ▸ hmem)
        simp at this
    have htail_bar : tail = [] ∨ tail.head? = some bar := by
      have hhead := List.head?_dropWhile_not (fun c => decide (c ≠ bar)) text
      rw [htail] at hhead
      cases tail with
      | nil => exact .inl rfl
      | cons c tail => exact .inr (congrArg some (by simpa using hhead))
    have hstep : strtok bar (line ++ 0 :: extra) 0 = _ :=
      strtok_token (hwhole.trans hsplit) hbars htoken htail_bar
    rw [Nat.zero_add, ← List.length_append] at hstep
    -- The later calls only write behind the first piece, which ends where it did.
    obtain ⟨mem, p, later, hp, hmem, hlater, hbehind, rfl⟩ : ∃ mem p later,
        (skip ++ piece).length ≤ p ∧ cstr mem = skip ++ piece ∧
        strtokAll bar room mem p = some (command, later) ∧
        (∀ str ∈ later, (skip ++ piece).length < str) ∧ commands = skip.length :: later := by
      rw [strtokAll, hstep] at h
      by_cases hnil : tail = []
      · rw [if_pos hnil] at h
        obtain ⟨⟨mem, later⟩, hlater, heq⟩ := Option.map_eq_some_iff.mp h
        obtain ⟨rfl, rfl⟩ := Prod.mk.inj heq
        rw [hnil, List.append_nil] at hsplit
        refine ⟨_, _, later, le_rfl, hwhole.trans hsplit, hlater, fun str hstr => ?_, rfl⟩
        have hempty : stringAt (line ++ 0 :: extra) (skip ++ piece).length = [] := by
          rw [hsplit]
          exact stringAt_append _
        rw [strtokAll_end hempty hlater] at hstr
        exact absurd hstr List.not_mem_nil
      · rw [if_neg hnil] at h
        obtain ⟨⟨mem, later⟩, hlater, heq⟩ := Option.map_eq_some_iff.mp h
        obtain ⟨rfl, rfl⟩ := Prod.mk.inj heq
        refine ⟨_, _, later, Nat.le_succ _, ?_, hlater, fun str hstr => ?_, rfl⟩
        · rw [cstr_set_take, hwhole, hsplit, ← List.append_assoc, List.take_left]
        · have hge := strtokAll_ge hlater str hstr
          omega
    have hkept := strtokAll_keeps (Q := fun mem => cstr mem = skip ++ piece)
      (fun mem i hi hmem => by
        rw [cstr_set_take, hmem, List.take_of_length_le (hp.trans hi)]) hlater hmem
    refine .inr ⟨skip, piece, later, rfl, hbars, hkept, hwithin, fun str hstr => ?_⟩
    rw [hkept]
    exact hbehind str hstr

/-- What parsing leaves of a line in the buffer has no newline. -/
theorem leftover_noNewline (hline : IsLine line) (hzero : (0 : Byte) ∉ line)
    (h : parse (line ++ 0 :: extra) = some (command', execs)) : newline ∉ cstr command' := by
  obtain ⟨⟨command₁, commands⟩, hsplit, hrest⟩ := Option.bind_eq_some_iff.mp h
  dsimp only at hrest
  split at hrest
  · contradiction
  next hsome =>
  obtain ⟨command₂, htrim, hfork⟩ := Option.bind_eq_some_iff.mp hrest
  rcases strtokAll_line hzero hsplit with hnone | ⟨skip, piece, later, rfl, hbars, hfirst, hshort,
    hbehind⟩
  · exact absurd hnone hsome
  obtain ⟨trimmed, hstep, hothers⟩ := Option.bind_eq_some_iff.mp htrim
  have hskip : newline ∉ skip := fun hmem => absurd (hbars _ hmem) (by decide)
  obtain ⟨hnewline, hle⟩ := trim_first hfirst hskip (hline.of_front hshort) hstep
  have hset : ∀ n mem i, newline ∉ cstr mem ∧ (cstr mem).length ≤ n →
      newline ∉ cstr (mem.set i 0) ∧ (cstr (mem.set i 0)).length ≤ n := by
    intro n mem i hmem
    have hcut := cstr_set_zero mem i
    exact ⟨fun h => hmem.1 (hcut.subset h), hcut.length_le.trans hmem.2⟩
  have htrim := trimAll_keeps (hset (cstr command₁).length)
    (fun mem start count str hstr hmem => by
      rwa [shiftDown_cstr (Nat.lt_of_le_of_lt hmem.2 (hbehind str hstr))])
    hothers ⟨hnewline, hle⟩
  exact (forkCommands_keeps (hset _) hfork htrim).1

end Leftover

/-- A buffer with a string that has no newline, as parsing leaves it. -/
def Spent (command : Bytes) : Prop :=
  ∃ text extra, command = text ++ 0 :: extra ∧ newline ∉ text ∧ (0 : Byte) ∉ text

theorem Spent.of_cstr {command : Bytes} (hzero : (0 : Byte) ∈ command)
    (h : newline ∉ cstr command) : Spent command := by
  obtain ⟨extra, hextra⟩ := exists_terminator hzero
  exact ⟨cstr command, extra, hextra, h, zero_not_mem_cstr command⟩

theorem cstr_ends {command : Bytes} (h : Ends command) (extra : Bytes) :
    cstr (command ++ extra) = cstr command := by
  obtain ⟨front, rfl⟩ := h
  rw [List.append_assoc, List.singleton_append, cstr_append_zero, cstr_append_zero]

theorem parse_ends_of {line after : Bytes} {execs : List (Option Exec)}
    (h : parse (line ++ [0]) = some (after, execs)) : Ends after :=
  (parse_ends ⟨line, rfl⟩).1 _ h

theorem parse_held {line extra after : Bytes} {execs : List (Option Exec)}
    (h : parse (line ++ 0 :: extra) = some (after, execs)) :
    ∃ after', parse (line ++ [0]) = some (after', execs) ∧ after = after' ++ extra := by
  rw [parse_frame] at h
  obtain ⟨⟨after', execs'⟩, hresult, heq⟩ := Option.map_eq_some_iff.mp h
  obtain ⟨rfl, rfl⟩ := Prod.mk.inj heq
  exact ⟨after', hresult, rfl⟩

theorem parse_spent {line extra after : Bytes} {execs : List (Option Exec)}
    (hline : IsLine line) (hzero : (0 : Byte) ∉ line)
    (h : parse (line ++ 0 :: extra) = some (after, execs)) : Spent after := by
  refine .of_cstr ?_ (leftover_noNewline hline hzero h)
  obtain ⟨after', hafter', rfl⟩ := parse_held h
  obtain ⟨front, rfl⟩ := parse_ends_of hafter'
  simp

/-! ### The loop -/

/-- A call of `fgets`: what is unread in the input, which the children share and may have
read or moved, and, if a SIGCHLD interrupts the call, how many bytes it had taken. -/
structure Call where
  unread : Bytes
  interrupted : Option ℕ

/-- A pass whose `fgets` may be interrupted. The buffer is then as it was, or, if the call
has taken bytes, holds what nothing is said about, here `left`. -/
def attempt (command left : Bytes) (call : Call) : Pass :=
  match call.interrupted with
  | none => pass command call.unread
  | some taken => act (if taken = 0 then command else left) (call.unread.drop taken)

/-- The lines that `main` runs in its first `passes`; `none` if it leaves an array. -/
def executed : ℕ → Bytes → (ℕ → Call) → (ℕ → Bytes) → Option (List Bytes)
  | 0, _, _, _ => some []
  | passes + 1, command, calls, left =>
    match attempt command (left 0) (calls 0) with
    | .exits => some []
    | .fault => none
    | .runs line _ command _ =>
      (executed passes command (fun i => calls (i + 1)) fun i => left (i + 1)).map (line :: ·)

def commandLines (stdin : Bytes) : List Bytes := (lines stdin).takeWhile (· ≠ quitLine)

/-- Whatever the buffer holds before the first line and after a call that failed, the
lines are run one by one, and nothing else. -/
def RunOnce (stdin : Bytes) (calls : ℕ → Call) : Prop :=
  ∀ command, command.length = maxCommandLen → ∀ left : ℕ → Bytes,
    (∀ i, (left i).length = maxCommandLen) → ∀ passes,
      executed passes command calls left = some ((commandLines stdin).take passes)

/-- What the call leaves of the input. -/
def Call.rest (call : Call) : Bytes :=
  match call.interrupted with
  | none => (fgets (maxCommandLen - 1) call.unread).2
  | some taken => call.unread.drop taken

/-- The calls of a `main` whose children leave the input alone. -/
def Unshared (stdin : Bytes) (calls : ℕ → Call) : Prop :=
  (calls 0).unread = stdin ∧ ∀ i, (calls (i + 1)).unread = (calls i).rest

/-- The calls that nothing disturbs. -/
def undisturbed (stdin : Bytes) (i : ℕ) : Call :=
  ⟨(fun unread => (fgets (maxCommandLen - 1) unread).2)^[i] stdin, none⟩

def Call.Reads (call : Call) (line : Bytes) : Prop :=
  call.interrupted = none ∧ cstr (fgets (maxCommandLen - 1) call.unread).1 = line

/-- The buffer has `line` after the call: it is read, or it is `held` and nothing is taken. -/
def Call.Gives (call : Call) (held line : Bytes) : Prop :=
  call.Reads line ∨ held = line ∧
    (call.interrupted = some 0 ∨ call.interrupted = none ∧ call.unread = [])

/-- The calls give the lines to be run, which `main` can parse, and then the one that ends
the program; `held` is what parsing has left, and before the first line nothing is. -/
def Gets : Bytes → List Bytes → (ℕ → Call) → Prop
  | held, [], calls => (calls 0).Gives held quitLine
  | held, line :: commands, calls => (calls 0).Gives held line ∧
    ∃ after execs, parse (line ++ [0]) = some (after, execs) ∧
      Gets (cstr after) commands fun i => calls (i + 1)

/-- There is a line that ends the program, and `main` can read and parse those before. -/
def Fits (stdin : Bytes) : Prop :=
  quitLine ∈ lines stdin ∧ ∀ line ∈ commandLines stdin,
    line.length < maxCommandLen ∧ (0 : Byte) ∉ line ∧ (parse (line ++ [0])).isSome

section Passes
variable {command left after input rest line held : Bytes} {call : Call}
  {execs : List (Option Exec)}

theorem fgets_isLine (n : ℕ) (input : Bytes) : IsLine (fgets n input).1 := by
  cases n with
  | zero => exact ⟨[], List.not_mem_nil, .inl rfl⟩
  | succ n =>
    cases hlines : lines input with
    | nil =>
      rw [eq_nil_of_lines hlines]
      exact ⟨[], List.not_mem_nil, .inl rfl⟩
    | cons line rest =>
      rw [(fgets_lines hlines (Nat.succ_pos n)).1]
      have hline : IsLine line := line_front (hlines ▸ List.mem_cons_self)
      exact hline.of_front (List.take_prefix _ line)

theorem cstr_of_exits (h : act command input = .exits) : cstr command = quitLine := by
  unfold act at h
  split at h
  · assumption
  · split at h <;> contradiction

theorem parse_of_runs (h : act command input = .runs line execs after rest) :
    cstr command = line ∧ parse command = some (after, execs) := by
  unfold act at h
  split at h
  · contradiction
  split at h
  · contradiction
  next hparse =>
  obtain ⟨rfl, rfl, rfl, rfl⟩ := Pass.runs.inj h
  exact ⟨rfl, hparse⟩

theorem act_quit (extra input : Bytes) : act (quitLine ++ 0 :: extra) input = .exits := by
  rw [act, cstr_append (by decide), if_pos rfl]

theorem act_runs (hzero : (0 : Byte) ∉ line) (hquit : line ≠ quitLine)
    (hparse : parse (line ++ [0]) = some (after, execs)) (extra input : Bytes) :
    act (line ++ 0 :: extra) input = .runs line execs (after ++ extra) input := by
  rw [act, cstr_append hzero, if_neg hquit, parse_frame, hparse]
  rfl

theorem readCommand_fgets (command : Bytes) (h : input ≠ []) : ∃ extra,
    (readCommand command input).1 = cstr (fgets (maxCommandLen - 1) input).1 ++ 0 :: extra := by
  obtain ⟨extra, hextra⟩ := @exists_terminator ((fgets (maxCommandLen - 1) input).1 ++ 0 ::
    command.drop ((fgets (maxCommandLen - 1) input).1.length + 1)) (by simp)
  rw [cstr_append_zero] at hextra
  rw [readCommand, if_neg h]
  exact ⟨extra, hextra⟩

theorem attempt_reads (h : call.Reads line) (hline : line ≠ []) (command left : Bytes) :
    ∃ extra rest, attempt command left call = act (line ++ 0 :: extra) rest := by
  obtain ⟨hcall, hread⟩ := h
  have hne : call.unread ≠ [] := by
    intro hnil
    rw [hnil] at hread
    exact hline hread.symm
  obtain ⟨extra, hbuffer⟩ := readCommand_fgets command hne
  refine ⟨extra, (readCommand command call.unread).2, ?_⟩
  rw [attempt, hcall]
  dsimp only
  rw [pass, hbuffer, hread]

/-- A string that the buffer holds; the empty one says nothing. -/
def Holds (held command : Bytes) : Prop :=
  held = [] ∨ (0 : Byte) ∉ held ∧ ∃ extra, command = held ++ 0 :: extra

theorem holds_ends (h : Ends command) (extra : Bytes) :
    Holds (cstr command) (command ++ extra) := by
  have hmem : (0 : Byte) ∈ command ++ extra := by
    obtain ⟨front, rfl⟩ := h
    simp
  obtain ⟨tail, htail⟩ := exists_terminator hmem
  rw [cstr_ends h] at htail
  exact .inr ⟨zero_not_mem_cstr _, tail, htail⟩

theorem attempt_gives (h : call.Gives held line) (hheld : Holds held command) (hline : line ≠ [])
    (left : Bytes) : (0 : Byte) ∉ line ∧
      ∃ extra rest, attempt command left call = act (line ++ 0 :: extra) rest := by
  rcases h with hreads | ⟨rfl, htaken⟩
  · exact ⟨hreads.2 ▸ zero_not_mem_cstr _, attempt_reads hreads hline command left⟩
  · obtain ⟨hzero, extra, rfl⟩ := hheld.resolve_left hline
    refine ⟨hzero, extra, ?_⟩
    unfold attempt
    rcases htaken with hcall | ⟨hcall, hunread⟩
    · rw [hcall]
      exact ⟨_, rfl⟩
    · rw [hcall]
      dsimp only
      rw [hunread, pass, readCommand, if_pos rfl]
      exact ⟨_, rfl⟩

/-- A pass acts on one line, which the call gives unless the buffer has been emptied. -/
theorem attempt_acts (hcommand : Spent command) (call : Call) (extra : Bytes) :
    ∃ line extra' rest, attempt command (0 :: extra) call = act (line ++ 0 :: extra') rest ∧
      (0 : Byte) ∉ line ∧ IsLine line ∧ (line ≠ [] → call.Gives (cstr command) line) := by
  obtain ⟨text, extra', rfl, htext, hzero⟩ := hcommand
  have hkept : ∀ input, (call.interrupted = some 0 ∨ call.interrupted = none ∧ call.unread = []) →
      ∃ line extra rest, act (text ++ 0 :: extra') input = act (line ++ 0 :: extra) rest ∧
        (0 : Byte) ∉ line ∧ IsLine line ∧
          (line ≠ [] → call.Gives (cstr (text ++ 0 :: extra')) line) := by
    intro input htaken
    exact ⟨text, extra', input, rfl, hzero, ⟨text, htext, .inl rfl⟩,
      fun _ => .inr ⟨cstr_append hzero extra', htaken⟩⟩
  unfold attempt
  split
  · next hcall =>
    by_cases hnil : call.unread = []
    · rw [pass, readCommand, if_pos hnil]
      exact hkept _ (.inr ⟨hcall, hnil⟩)
    · obtain ⟨extra, hbuffer⟩ := readCommand_fgets (text ++ 0 :: extra') hnil
      rw [pass, hbuffer]
      exact ⟨_, extra, _, rfl, zero_not_mem_cstr _,
        (fgets_isLine _ _).of_front (List.takeWhile_prefix _), fun _ => .inl ⟨hcall, rfl⟩⟩
  · next taken hcall =>
    split
    · next htaken => exact hkept _ (.inl (htaken ▸ hcall))
    · exact ⟨[], extra, _, rfl, List.not_mem_nil, ⟨[], List.not_mem_nil, .inl rfl⟩,
        fun hne => absurd rfl hne⟩

theorem gives_of_exits {extra : Bytes} (hcommand : Spent command)
    (h : attempt command (0 :: extra) call = .exits) : call.Gives (cstr command) quitLine := by
  obtain ⟨line, extra', rest, hact, hzero, -, hgives⟩ := attempt_acts hcommand call extra
  have hquit := cstr_of_exits (hact.symm.trans h)
  rw [cstr_append hzero] at hquit
  subst hquit
  exact hgives (by decide)

theorem gives_of_runs {extra : Bytes} (hcommand : Spent command) (hline : line ≠ [])
    (h : attempt command (0 :: extra) call = .runs line execs after rest) :
    call.Gives (cstr command) line ∧ Spent after ∧
      ∃ after', parse (line ++ [0]) = some (after', execs) ∧ cstr after = cstr after' := by
  obtain ⟨line', extra', rest', hact, hzero, hisLine, hgives⟩ := attempt_acts hcommand call extra
  obtain ⟨hcstr, hparse⟩ := parse_of_runs (hact.symm.trans h)
  rw [cstr_append hzero] at hcstr
  subst hcstr
  refine ⟨hgives hline, parse_spent hisLine hzero hparse, ?_⟩
  obtain ⟨after', hafter', heq⟩ := parse_held hparse
  exact ⟨after', hafter', heq ▸ cstr_ends (parse_ends_of hafter') extra'⟩

end Passes

section Runs
variable {command held line : Bytes} {commands : List Bytes} {calls : ℕ → Call}
  {left : ℕ → Bytes}

theorem executed_of_gets (h : Gets held commands calls) (hheld : Holds held command)
    (hcommands : ∀ line ∈ commands, line ≠ [] ∧ line ≠ quitLine) (left : ℕ → Bytes) (passes : ℕ) :
    executed passes command calls left = some (commands.take passes) := by
  induction commands generalizing held command calls left passes with
  | nil =>
    cases passes with
    | zero => rfl
    | succ passes =>
      obtain ⟨-, extra, rest, hact⟩ := attempt_gives h hheld (by decide) (left 0)
      rw [executed, hact, act_quit, List.take_nil]
  | cons line commands ih =>
    cases passes with
    | zero => rfl
    | succ passes =>
      obtain ⟨hgives, after, execs, hparse, hrest⟩ := h
      obtain ⟨hne, hquit⟩ := hcommands line List.mem_cons_self
      obtain ⟨hzero, extra, rest, hact⟩ := attempt_gives hgives hheld hne (left 0)
      rw [executed, hact, act_runs hzero hquit hparse]
      dsimp only
      rw [ih hrest (holds_ends (parse_ends_of hparse) extra)
        fun line hline => hcommands line (List.mem_cons_of_mem _ hline)]
      rfl

/-- What the first pass of a run does. -/
theorem executed_nil (h : executed 1 command calls left = some []) :
    attempt command (left 0) (calls 0) = .exits := by
  rw [executed] at h
  cases hpass : attempt command (left 0) (calls 0) with
  | exits => rfl
  | fault => simp [hpass] at h
  | runs line execs after rest => simp [hpass, executed] at h

theorem executed_cons
    (h : ∀ passes, executed passes command calls left = some ((line :: commands).take passes)) :
    ∃ execs after rest, attempt command (left 0) (calls 0) = .runs line execs after rest ∧
      ∀ passes, executed passes after (fun i => calls (i + 1)) (fun i => left (i + 1)) =
        some (commands.take passes) := by
  have hsucc := fun passes => h (passes + 1)
  simp only [executed, List.take_succ_cons] at hsucc
  cases hpass : attempt command (left 0) (calls 0) with
  | exits => simp [hpass] at hsucc
  | fault => simp [hpass] at hsucc
  | runs line' execs after rest =>
    simp only [hpass] at hsucc
    obtain ⟨lines, -, hlines⟩ := Option.map_eq_some_iff.mp (hsucc 0)
    obtain ⟨rfl, -⟩ := List.cons.inj hlines
    refine ⟨execs, after, rest, rfl, fun passes => ?_⟩
    obtain ⟨lines, hlines, heq⟩ := Option.map_eq_some_iff.mp (hsucc passes)
    rw [hlines, (List.cons.inj heq).2]

theorem gets_of_executed (hcommand : Spent command) (hleft : ∀ i, ∃ extra, left i = 0 :: extra)
    (hcommands : ∀ line ∈ commands, line ≠ [])
    (h : ∀ passes, executed passes command calls left = some (commands.take passes)) :
    Gets (cstr command) commands calls := by
  obtain ⟨extra, hextra⟩ := hleft 0
  induction commands generalizing command calls left extra with
  | nil =>
    have hexits := executed_nil (h 1)
    rw [hextra] at hexits
    exact gives_of_exits hcommand hexits
  | cons line commands ih =>
    obtain ⟨execs, after, rest, hruns, hrest⟩ := executed_cons h
    rw [hextra] at hruns
    obtain ⟨hgives, hafter, after', hparse, heq⟩ :=
      gives_of_runs hcommand (hcommands line List.mem_cons_self) hruns
    obtain ⟨extra', hextra'⟩ := hleft 1
    refine ⟨hgives, after', execs, hparse, heq ▸ ih hafter (fun i => hleft (i + 1)) ?_ hrest
      extra' hextra'⟩
    exact fun line hline => hcommands line (List.mem_cons_of_mem _ hline)

end Runs

section Lines
variable {stdin first line held : Bytes} {rest : List Bytes} {calls : ℕ → Call}

theorem commandLines_cons {next : Bytes} (h : lines stdin = first :: rest)
    (hnext : lines next = rest) (hfirst : first ≠ quitLine) :
    commandLines stdin = first :: commandLines next := by
  rw [commandLines, h, List.takeWhile_cons, if_pos (decide_eq_true hfirst), commandLines, hnext]

theorem commandLines_quit (h : lines stdin = quitLine :: rest) : commandLines stdin = [] := by
  rw [commandLines, h, List.takeWhile_cons, if_neg (by simp)]

theorem commandLine_ne (h : line ∈ commandLines stdin) : line ≠ [] ∧ line ≠ quitLine := by
  refine ⟨line_ne_nil ((List.takeWhile_prefix _).subset h), ?_⟩
  simpa using List.mem_takeWhile_imp h

theorem lines_rest (h : lines stdin = first :: rest) (hfits : first.length < maxCommandLen) :
    lines (fgets (maxCommandLen - 1) stdin).2 = rest := by
  have hdrop : first.drop (maxCommandLen - 1) = [] := List.drop_of_length_le (by omega)
  rw [(fgets_lines h (by decide)).2, if_pos hdrop]

theorem Call.reads_iff {call : Call} (h : lines stdin = first :: rest)
    (hcall : call.unread = stdin) :
    call.Reads first ↔ call.interrupted = none ∧ first.length < maxCommandLen ∧
      (0 : Byte) ∉ first := by
  have hpiece := (fgets_lines h (n := maxCommandLen - 1) (by decide)).1
  unfold Call.Reads
  rw [hcall, hpiece]
  refine and_congr_right fun _ => ⟨fun hcstr => ?_, fun hfits => ?_⟩
  · have hle : (cstr (first.take (maxCommandLen - 1))).length ≤ _ :=
      (List.takeWhile_prefix _).length_le
    rw [hcstr, List.length_take] at hle
    exact ⟨by unfold maxCommandLen at *; omega, hcstr ▸ zero_not_mem_cstr _⟩
  · have hle : first.length ≤ maxCommandLen - 1 := by omega
    rw [List.take_of_length_le hle, cstr_self hfits.2]

theorem Unshared.next (h : Unshared stdin calls) (hcall : (calls 0).interrupted = none) :
    Unshared (fgets (maxCommandLen - 1) stdin).2 fun i => calls (i + 1) := by
  refine ⟨?_, fun i => h.2 (i + 1)⟩
  rw [h.2 0, Call.rest, hcall, h.1]

theorem unshared_undisturbed (stdin : Bytes) : Unshared stdin (undisturbed stdin) :=
  ⟨rfl, fun i => Function.iterate_succ_apply' _ i stdin⟩

theorem Call.rest_subset (call : Call) : call.rest ⊆ call.unread := by
  rw [Call.rest]
  split
  · have happend := fgets_append (maxCommandLen - 1) call.unread
    exact fun b hb => happend ▸ List.mem_append_right _ hb
  · exact List.drop_subset _ _

theorem newline_of_reads_quit {call : Call} (h : call.Reads quitLine) : newline ∈ call.unread := by
  have hpiece : newline ∈ (fgets (maxCommandLen - 1) call.unread).1 := by
    apply (List.takeWhile_prefix (fun b => decide (b ≠ 0))).subset
    rw [← cstr, h.2]
    decide
  exact fgets_append (maxCommandLen - 1) call.unread ▸ List.mem_append_left _ hpiece

theorem ne_quitLine (h : newline ∉ held) : held ≠ quitLine := by
  rintro rfl
  exact h (by decide)

/-- A line that nothing has read is the last, and no line is read behind it. -/
theorem reads_of_gets (hunshared : Unshared stdin calls) (hlines : lines stdin = first :: rest)
    (hheld : newline ∉ held) (hzero : (0 : Byte) ∉ held) (hfirst : first ≠ quitLine)
    (h : Gets held (commandLines stdin) calls) : (calls 0).Reads first := by
  rw [commandLines, hlines, List.takeWhile_cons, if_pos (decide_eq_true hfirst)] at h
  obtain ⟨hgives, after, execs, hparse, hrest⟩ := h
  rcases hgives with hreads | ⟨rfl, -⟩
  · exact hreads
  exfalso
  obtain rfl : rest = [] := by
    by_contra hne
    refine hheld (@newline_mem_of_dropLast stdin held ?_)
    rw [hlines, List.dropLast_cons_of_ne_nil hne]
    exact List.mem_cons_self
  obtain rfl : stdin = held := by
    rw [← lines_flatten stdin, hlines, List.flatten_singleton]
  rcases hrest with hquit | ⟨hquit, -⟩
  · have hunread := (calls 0).rest_subset (hunshared.2 0 ▸ newline_of_reads_quit hquit)
    rw [hunshared.1] at hunread
    exact hheld hunread
  · have hnone := leftover_noNewline ⟨stdin, hheld, .inl rfl⟩ hzero hparse
    exact ne_quitLine hnone hquit

/-- Where the children leave the input alone, the calls read it line by line as long as
none is interrupted. -/
theorem gets_iff_fits (hunshared : Unshared stdin calls) (hheld : newline ∉ held)
    (hzero : (0 : Byte) ∉ held) : Gets held (commandLines stdin) calls ↔
      Fits stdin ∧ ∀ i ≤ (commandLines stdin).length, (calls i).interrupted = none := by
  generalize hlines : lines stdin = rest
  induction rest generalizing stdin calls held with
  | nil =>
    have hreads : ¬ (calls 0).Reads quitLine := by
      intro hreads
      have hunread := newline_of_reads_quit hreads
      rw [hunshared.1, eq_nil_of_lines hlines] at hunread
      exact absurd hunread List.not_mem_nil
    simp [Fits, Gets, Call.Gives, commandLines, hlines, hreads, ne_quitLine hheld]
  | cons first rest ih =>
    have hreads := Call.reads_iff hlines hunshared.1
    by_cases hfirst : first = quitLine
    · subst hfirst
      have hlast : (calls 0).Gives held quitLine ↔ (calls 0).interrupted = none := by
        rw [Call.Gives, hreads, or_iff_left fun h => ne_quitLine hheld h.1]
        exact and_iff_left (by decide)
      simp [Fits, Gets, commandLines_quit hlines, hlines, hlast]
    have hline : IsLine first := line_front (hlines ▸ List.mem_cons_self)
    constructor
    · intro h
      have hread := reads_of_gets hunshared hlines hheld hzero hfirst h
      obtain ⟨hcall, hlength, hfront⟩ := hreads.mp hread
      have hnext := lines_rest hlines hlength
      rw [commandLines_cons hlines hnext hfirst] at h ⊢
      obtain ⟨-, after, execs, hparse, hrest⟩ := h
      have hleft := leftover_noNewline hline hfront hparse
      obtain ⟨⟨hquit, hfits⟩, hall⟩ :=
        (ih (hunshared.next hcall) hleft (zero_not_mem_cstr _) hnext).mp hrest
      refine ⟨⟨?_, ?_⟩, fun i hi => ?_⟩
      · rw [hlines, ← hnext]
        exact List.mem_cons_of_mem _ hquit
      · rw [commandLines_cons hlines hnext hfirst, List.forall_mem_cons]
        exact ⟨⟨hlength, hfront, by rw [hparse]; rfl⟩, hfits⟩
      · cases i with
        | zero => exact hcall
        | succ i => exact hall i (Nat.le_of_succ_le_succ hi)
    · rintro ⟨⟨hquit, hfits⟩, hall⟩
      have hcall := hall 0 (Nat.zero_le _)
      have hfirstLine : first ∈ commandLines stdin := by
        rw [commandLines, hlines, List.takeWhile_cons, if_pos (decide_eq_true hfirst)]
        exact List.mem_cons_self
      obtain ⟨hlength, hfront, hparsed⟩ := hfits first hfirstLine
      have hnext := lines_rest hlines hlength
      rw [commandLines_cons hlines hnext hfirst] at hfits hall ⊢
      obtain ⟨⟨after, execs⟩, hparse⟩ := Option.isSome_iff_exists.mp hparsed
      have hleft := leftover_noNewline hline hfront hparse
      refine ⟨.inl (hreads.mpr ⟨hcall, hlength, hfront⟩), after, execs, hparse, ?_⟩
      refine (ih (hunshared.next hcall) hleft (zero_not_mem_cstr _) hnext).mpr ⟨⟨?_, ?_⟩, ?_⟩
      · rw [hlines] at hquit
        exact hnext ▸ (List.mem_cons.mp hquit).resolve_left (Ne.symm hfirst)
      · exact fun line h => hfits line (List.mem_cons_of_mem _ h)
      · exact fun i hi => hall (i + 1) (Nat.succ_le_succ hi)

end Lines

/-- `main` runs every line once exactly if its calls give the lines up to a `:q` and it can
parse those before. Where the children leave the input alone, that is so exactly if it has
a `:q`, each line before fits in the buffer, has no zero and is parsed within the arrays,
and none of the calls is interrupted. -/
theorem runOnce_iff (stdin : Bytes) (calls : ℕ → Call) :
    (RunOnce stdin calls ↔ Gets [] (commandLines stdin) calls) ∧
    (Unshared stdin calls → (RunOnce stdin calls ↔
      Fits stdin ∧ ∀ i ≤ (commandLines stdin).length, (calls i).interrupted = none)) := by
  have hgets : RunOnce stdin calls ↔ Gets [] (commandLines stdin) calls := by
    constructor
    · intro h
      have hzeros : Spent (List.replicate maxCommandLen 0) :=
        ⟨[], List.replicate (maxCommandLen - 1) 0, rfl, List.not_mem_nil, List.not_mem_nil⟩
      exact gets_of_executed hzeros (fun _ => ⟨_, rfl⟩) (fun _ hline => (commandLine_ne hline).1)
        (h _ (List.length_replicate ..) (fun _ => List.replicate maxCommandLen 0)
          fun _ => List.length_replicate ..)
    · intro h command _ left _ passes
      exact executed_of_gets h (.inl rfl) (fun _ hline => commandLine_ne hline) left passes
  exact ⟨hgets, fun hunshared =>
    hgets.trans (gets_iff_fits hunshared List.not_mem_nil List.not_mem_nil)⟩

/-- `a`, then `:q`. -/
theorem twoLines_runOnce :
    RunOnce [97, newline, 58, 113, newline] (undisturbed [97, newline, 58, 113, newline]) :=
  ((runOnce_iff _ _).2 (unshared_undisturbed _)).mpr ⟨⟨by decide, by decide⟩, fun _ _ => rfl⟩

/-- The second call is interrupted before it has taken a byte. -/
def secondInterrupted : ℕ → Call
  | 0 => ⟨[97, newline, 58, 113, newline], none⟩
  | 1 => ⟨[58, 113, newline], some 0⟩
  | i + 2 => undisturbed [58, 113, newline] i

theorem unshared_secondInterrupted :
    Unshared [97, newline, 58, 113, newline] secondInterrupted := by
  refine ⟨rfl, fun i => ?_⟩
  cases i with
  | zero => decide
  | succ i =>
    cases i with
    | zero => rfl
    | succ i => exact (unshared_undisturbed [58, 113, newline]).2 i

set_option maxRecDepth 4000 in
/-- What is left of a line is run again: where the input ends without a `:q`, and where the
call that would read the next line is interrupted. -/
theorem lastLine_rerun :
    ¬ RunOnce [97, newline] (undisturbed [97, newline]) ∧
    Unshared [97, newline, 58, 113, newline] secondInterrupted ∧
      ¬ RunOnce [97, newline, 58, 113, newline] secondInterrupted := by
  have hlength : (List.replicate maxCommandLen (35 : Byte)).length = maxCommandLen := by simp
  refine ⟨fun h => ?_, unshared_secondInterrupted, fun h => ?_⟩
  · have htwo : executed 2 (List.replicate maxCommandLen 35) (undisturbed [97, newline])
        (fun _ => List.replicate maxCommandLen 35) = some [[97, newline], [97]] := by rfl
    have hone := h _ hlength (fun _ => List.replicate maxCommandLen 35) (fun _ => hlength) 2
    rw [htwo] at hone
    exact absurd hone (by decide)
  · have htwo : executed 2 (List.replicate maxCommandLen 35) secondInterrupted
        (fun _ => List.replicate maxCommandLen 35) = some [[97, newline], [97]] := by rfl
    have hone := h _ hlength (fun _ => List.replicate maxCommandLen 35) (fun _ => hlength) 2
    rw [htwo] at hone
    exact absurd hone (by decide)

end AdvancedCProjects.Terminal
