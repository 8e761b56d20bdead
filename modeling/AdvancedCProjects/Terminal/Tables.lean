import AdvancedCProjects.Base.Pieces
import AdvancedCProjects.Base.Writes
import AdvancedCProjects.Terminal.Trim

/-!
# The tables of commands and arguments (terminal.c:98-133, 171-188, 229-246)

`commands` and `args` have room for `MAX_ARGS` entries. Both loops that fill them
store an entry first and look at its index afterwards.
-/

namespace AdvancedCProjects.Terminal
open Base

inductive Table where
  | commands
  | args
  deriving DecidableEq

instance tableSized : Sized Table := ⟨fun _ => maxArgs⟩

/-- What `main` does with the tables. -/
inductive Use where
  | store (entry : Write Table)
  | load (written : Bool)
  | length (size : ℤ)
  | leaves

/-- Entries are stored within their table and written before they are read, lengths are not
negative. When `trim` has left the buffer, nothing is known of what follows. -/
def Use.Sound : Use → Prop
  | store entry => entry.Inside
  | load written => written = true
  | length size => 0 ≤ size
  | leaves => False

/-- The loop that fills a table from entry `number` on, with `left` of the `MAX_ARGS` rounds to
go; it ends with what `strtok` has left and the entries before the last one stored. -/
def storeTokens (table : Table) (delim : Byte) : ℕ → ℕ → Bytes → ℕ → List Use × Bytes × List ℕ
  | 0, number, mem, p => ([.store ⟨table, number⟩], (strtok delim mem p).1, [])
  | left + 1, number, mem, p =>
    match strtok delim mem p with
    | (mem, none, _) => ([.store ⟨table, number⟩], mem, [])
    | (mem, some token, p) =>
      let r := storeTokens table delim left (number + 1) mem p
      (.store ⟨table, number⟩ :: r.1, r.2.1, token :: r.2.2)

/-- `for (int i = 1; args[i] != NULL; i++)`, the first time, with the entries from `i` on that
have been written. -/
def scanUses : List (Option Bytes) → List Use
  | [] => [.load false]
  | none :: _ => [.load true]
  | some arg :: rest =>
    if arg = [less] ∨ arg = [greater] then .load true :: .load (!rest.isEmpty) :: scanUses rest
    else .load true :: scanUses rest

/-- The second time, and what it leaves of the entries. -/
def cutUses : ℕ → List (Option Bytes) → List Use × List (Option Bytes)
  | _, [] => ([.load false], [])
  | _, none :: rest => ([.load true], none :: rest)
  | i, some arg :: rest =>
    if arg = [less] ∨ arg = [greater] then ([.load true, .store ⟨.args, i⟩], none :: rest)
    else
      let r := cutUses (i + 1) rest
      (.load true :: r.1, some arg :: r.2)

/-- The loop that logs the arguments; `execvp` reads them once more. -/
def listUses : List (Option Bytes) → List Use
  | [] => [.load false]
  | none :: _ => [.load true]
  | some _ :: rest => .load true :: listUses rest

def childUses (entries : List (Option Bytes)) : List Use :=
  let cut := cutUses 1 (entries.drop 1)
  let left := entries.take 1 ++ cut.2
  scanUses (entries.drop 1) ++ cut.1 ++ listUses left ++ listUses left

/-- The loop that forks: the arguments of a command are stored by the parent and by the child. -/
def forkUses (command : Bytes) : List ℕ → List Use
  | [] => []
  | str :: commands =>
    let r := storeTokens .args space maxArgs 0 command str
    let entries := r.2.2.map (fun arg => some (stringAt r.2.1 arg)) ++ [none]
    r.1 ++ .store ⟨.args, r.2.2.length⟩ :: childUses entries ++ forkUses r.2.1 commands

/-- What `main` does with the line in `command`. -/
def lineUses (command : Bytes) : List Use :=
  let r := storeTokens .commands bar maxArgs 0 command 0
  r.1 ++ match r.2.2.foldlM trim r.2.1 with
    | none => [.leaves]
    | some command =>
      .length (r.2.2.length - 1 : ℤ) :: .length r.2.2.length :: forkUses command r.2.2

def InBounds (command : Bytes) : Prop := ∀ use ∈ lineUses command, use.Sound

/-! ### The lines that fit -/

def isBlank (piece : Bytes) : Bool := piece.all isSpace

/-- Not so many that the last one fills the table, and not none. -/
def Few (entries : List (ℕ × Bytes)) : Prop := 1 ≤ entries.length ∧ entries.length < maxArgs

/-- What is left of the text at `q`: each blank piece behind it has a zero written as far in
front of it as it is long. -/
def leftOver (q : ℕ) (later : List (ℕ × Bytes)) (text : Bytes) : Bytes :=
  later.foldl (fun text piece =>
    if isBlank piece.2 ∧ q ≤ piece.1 - piece.2.length then
      text.take (piece.1 - piece.2.length - q)
    else text) text

/-- No zero is written in front of the line, and each command has arguments, but few. -/
def CommandsFit : List (ℕ × Bytes) → Prop
  | [] => True
  | (q, piece) :: later =>
    (isBlank piece → piece.length ≤ q) ∧
    Few (piecesAt space 0 (leftOver q later (if isBlank piece then piece else strip piece))) ∧
    CommandsFit later

def LineFits (line : Bytes) : Prop := Few (piecesAt bar 0 line) ∧ CommandsFit (piecesAt bar 0 line)

instance fewDecidable (entries : List (ℕ × Bytes)) : Decidable (Few entries) :=
  inferInstanceAs (Decidable (_ ∧ _))

instance commandsFitDecidable : (entries : List (ℕ × Bytes)) → Decidable (CommandsFit entries)
  | [] => .isTrue trivial
  | (_, _) :: later =>
    have := commandsFitDecidable later
    inferInstanceAs (Decidable ((_ → _) ∧ _ ∧ _))

instance lineFitsDecidable (line : Bytes) : Decidable (LineFits line) :=
  inferInstanceAs (Decidable (_ ∧ _))

/-! ### The uses are sound exactly if parsing succeeds -/

section Trace
variable {command mem : Bytes} {table : Table} {delim : Byte} {left number p i : ℕ}
  {args tokens : List Bytes} {commands : List ℕ}

theorem none_fails {R : Type} {P : R → Prop} : ¬ ∃ r, none = some r ∧ P r := by
  intro h
  obtain ⟨r, hnone, -⟩ := h
  exact Option.some_ne_none r hnone.symm

theorem store_sound : (Use.store ⟨table, number⟩).Sound ↔ number < maxArgs := by
  constructor
  · intro h
    exact Int.ofNat_lt.mp h.2
  · intro h
    exact ⟨Int.natCast_nonneg number, Int.ofNat_lt.mpr h⟩

/-- The loop is `strtokAll`, and stores behind the table where that fails. -/
theorem storeTokens_sound (table : Table) (delim : Byte) (left number : ℕ) (mem : Bytes) (p : ℕ)
    (hnumber : number + left = maxArgs) :
    (strtokAll delim left mem p = none →
      ∃ use ∈ (storeTokens table delim left number mem p).1, ¬ use.Sound) ∧
    ∀ r, strtokAll delim left mem p = some r →
      (∀ use ∈ (storeTokens table delim left number mem p).1, use.Sound) ∧
        (storeTokens table delim left number mem p).2 = r := by
  induction left generalizing number mem p with
  | zero =>
    refine ⟨fun _ => ⟨.store ⟨table, number⟩, List.mem_cons_self, fun h => ?_⟩, fun r h => ?_⟩
    · have hlast := store_sound.mp h
      omega
    · exact absurd h.symm (Option.some_ne_none r)
  | succ left ih =>
    have hhere : (Use.store ⟨table, number⟩).Sound := store_sound.mpr (by omega)
    rw [storeTokens, strtokAll]
    generalize strtok delim mem p = result
    obtain ⟨mem', token, q⟩ := result
    cases token with
    | none =>
      refine ⟨fun h => absurd h (Option.some_ne_none _), fun r h => ?_⟩
      exact ⟨List.forall_mem_singleton.mpr hhere, Option.some.inj h⟩
    | some token =>
      obtain ⟨hfails, hsplits⟩ := ih (number + 1) mem' q (by omega)
      refine ⟨fun h => ?_, fun r h => ?_⟩
      · obtain ⟨use, huse, hnot⟩ := hfails (Option.map_eq_none_iff.mp h)
        exact ⟨use, List.mem_cons_of_mem _ huse, hnot⟩
      · obtain ⟨rest, hrest, heq⟩ := Option.map_eq_some_iff.mp h
        obtain ⟨hsound, hrest⟩ := hsplits rest hrest
        refine ⟨List.forall_mem_cons.mpr ⟨hhere, hsound⟩, ?_⟩
        rw [← heq, ← hrest]

theorem scanUses_sound (args : List Bytes) :
    ∀ use ∈ scanUses (args.map some ++ [none]), use.Sound := by
  induction args with
  | nil => exact List.forall_mem_singleton.mpr rfl
  | cons arg args ih =>
    rw [List.map_cons, List.cons_append, scanUses]
    split
    · refine List.forall_mem_cons.mpr ⟨rfl, List.forall_mem_cons.mpr ⟨?_, ih⟩⟩
      -- the entry behind the last argument is the null pointer
      cases args <;> rfl
    · exact List.forall_mem_cons.mpr ⟨rfl, ih⟩

theorem listUses_sound (args : List Bytes) (rest : List (Option Bytes)) :
    ∀ use ∈ listUses (args.map some ++ none :: rest), use.Sound := by
  induction args with
  | nil => exact List.forall_mem_singleton.mpr rfl
  | cons arg args ih => exact List.forall_mem_cons.mpr ⟨rfl, ih⟩

theorem cutUses_sound (args : List Bytes) (hroom : i + args.length ≤ maxArgs) :
    (∀ use ∈ (cutUses i (args.map some ++ [none])).1, use.Sound) ∧
      ∃ (kept : List Bytes) (rest : List (Option Bytes)),
        (cutUses i (args.map some ++ [none])).2 = kept.map some ++ none :: rest := by
  induction args generalizing i with
  | nil => exact ⟨List.forall_mem_singleton.mpr rfl, [], [], rfl⟩
  | cons arg args ih =>
    rw [List.length_cons] at hroom
    rw [List.map_cons, List.cons_append, cutUses]
    split
    · have hstore : (Use.store ⟨.args, i⟩).Sound := store_sound.mpr (by omega)
      exact ⟨List.forall_mem_cons.mpr ⟨rfl, List.forall_mem_singleton.mpr hstore⟩, [], _, rfl⟩
    · obtain ⟨hsound, kept, rest, hkept⟩ := ih (i := i + 1) (by omega)
      refine ⟨List.forall_mem_cons.mpr ⟨rfl, hsound⟩, arg :: kept, rest, ?_⟩
      exact congrArg (some arg :: ·) hkept

theorem childUses_sound (args : List Bytes) (hroom : args.length < maxArgs) :
    (∀ use ∈ childUses (args.map some ++ [none]), use.Sound) ↔ args ≠ [] := by
  cases args with
  | nil =>
    refine iff_of_false (fun h => ?_) (fun h => h rfl)
    exact absurd (h (.load false) List.mem_cons_self) Bool.false_ne_true
  | cons arg args =>
    refine iff_of_true ?_ (List.cons_ne_nil _ _)
    rw [List.length_cons] at hroom
    obtain ⟨hcut, kept, rest, hkept⟩ := cutUses_sound (i := 1) args (by omega)
    have hlist := listUses_sound (arg :: kept) rest
    have hentries : (some arg :: (args.map some ++ [none])).drop 1 = args.map some ++ [none] := rfl
    have hleft : (some arg :: (args.map some ++ [none])).take 1 ++
        (kept.map some ++ none :: rest) = (arg :: kept).map some ++ none :: rest := rfl
    rw [List.map_cons, List.cons_append, childUses, hentries, hkept, hleft]
    intro use huse
    simp only [List.mem_append] at huse
    rcases huse with ((huse | huse) | huse) | huse
    · exact scanUses_sound args use huse
    · exact hcut use huse
    · exact hlist use huse
    · exact hlist use huse

theorem redirections_eq_none : redirections args = none ↔ args = [] := by
  cases args with
  | nil => exact iff_of_true rfl rfl
  | cons arg args => exact iff_of_false (Option.some_ne_none _) (List.cons_ne_nil _ _)

theorem forkUses_sound (command : Bytes) (commands : List ℕ) :
    (∀ use ∈ forkUses command commands, use.Sound) ↔
      ∃ r, forkCommands command commands = some r ∧ none ∉ r.2 := by
  induction commands generalizing command with
  | nil =>
    refine iff_of_true (fun _ h => absurd h List.not_mem_nil) ⟨(command, []), rfl, ?_⟩
    exact List.not_mem_nil
  | cons str commands ih =>
    obtain ⟨hfails, hsplits⟩ := storeTokens_sound .args space maxArgs 0 command str (Nat.zero_add _)
    rw [forkUses, forkCommands]
    generalize storeTokens .args space maxArgs 0 command str = stored at hfails hsplits
    obtain ⟨uses, mem, args⟩ := stored
    cases hsplit : strtokAll space maxArgs command str with
    | none =>
      obtain ⟨use, huse, hnot⟩ := hfails hsplit
      refine iff_of_false (fun h => hnot (h use ?_)) none_fails
      exact List.mem_append_left _ (List.mem_append_left _ huse)
    | some r =>
      obtain ⟨huses, rfl⟩ := hsplits r hsplit
      have hfew : args.length < maxArgs := strtokAll_few hsplit
      have hstore : (Use.store ⟨.args, args.length⟩).Sound := store_sound.mpr hfew
      have hchild := childUses_sound (args.map (stringAt mem)) (by rwa [List.length_map])
      rw [List.map_map] at hchild
      have hexec : redirections (args.map (stringAt mem)) ≠ none ↔ args.map (stringAt mem) ≠ [] :=
        not_congr redirections_eq_none
      dsimp only [Option.bind_some]
      rw [List.forall_mem_append, List.forall_mem_append, List.forall_mem_cons,
        and_iff_right huses, and_iff_right hstore, ih mem]
      constructor
      · intro h
        obtain ⟨hsound, r, hrest, hnone⟩ := h
        refine ⟨_, Option.map_eq_some_iff.mpr ⟨r, hrest, rfl⟩, ?_⟩
        rw [List.mem_cons, not_or]
        exact ⟨(hexec.mpr (hchild.mp hsound)).symm, hnone⟩
      · intro h
        obtain ⟨r, hmap, hnone⟩ := h
        obtain ⟨r', hrest, rfl⟩ := Option.map_eq_some_iff.mp hmap
        rw [List.mem_cons, not_or] at hnone
        exact ⟨hchild.mpr (hexec.mp (Ne.symm hnone.1)), r', hrest, hnone.2⟩

theorem inBounds_iff_parse (command : Bytes) :
    InBounds command ↔ ∃ r, parse command = some r ∧ none ∉ r.2 := by
  obtain ⟨hfails, hsplits⟩ := storeTokens_sound .commands bar maxArgs 0 command 0 (Nat.zero_add _)
  rw [InBounds, lineUses, parse]
  generalize storeTokens .commands bar maxArgs 0 command 0 = stored at hfails hsplits
  obtain ⟨uses, mem, commands⟩ := stored
  cases hsplit : strtokAll bar maxArgs command 0 with
  | none =>
    obtain ⟨use, huse, hnot⟩ := hfails hsplit
    exact iff_of_false (fun h => hnot (h use (List.mem_append_left _ huse))) none_fails
  | some r =>
    obtain ⟨huses, rfl⟩ := hsplits r hsplit
    dsimp only [Option.bind_some]
    rw [List.forall_mem_append, and_iff_right huses]
    by_cases hempty : commands = []
    · subst hempty
      refine iff_of_false (fun h => ?_) none_fails
      have hsize : (0 : ℤ) ≤ -1 := h (.length (-1)) List.mem_cons_self
      omega
    · have hpos := List.length_pos_iff.mpr hempty
      rw [if_neg hempty]
      cases commands.foldlM trim mem with
      | none =>
        exact iff_of_false (fun h => h .leaves List.mem_cons_self) none_fails
      | some trimmed =>
        have hpipes : (Use.length (commands.length - 1 : ℤ)).Sound := by
          unfold Use.Sound
          omega
        have hchildren : (Use.length commands.length).Sound := Int.natCast_nonneg _
        dsimp only [Option.bind_some]
        rw [List.forall_mem_cons, List.forall_mem_cons, and_iff_right hpipes,
          and_iff_right hchildren]
        exact forkUses_sound trimmed commands

end Trace

/-! ### Trimming the pieces -/

/-- The scan from the end of a string behind `pre` does not go into it. -/
def Stops (pre : Bytes) : Prop := ∃ front b, pre = front ++ [b] ∧ isSpace b = false

/-- What `trim` leaves of a piece. -/
def trimmedText (piece : Bytes) : Bytes := if isBlank piece then piece else strip piece

section Pieces
variable {pre pre' piece gap post mem mem' text : Bytes} {cells : List (Bytes × Bytes)}
  {later : List (ℕ × Bytes)} {p q : ℕ}

theorem leftOver_begins (q : ℕ) (later : List (ℕ × Bytes)) (text : Bytes) :
    leftOver q later text <+: text := by
  induction later generalizing text with
  | nil => exact List.prefix_refl text
  | cons first later ih =>
    refine (ih _).trans ?_
    dsimp only
    split
    · exact List.take_prefix _ text
    · exact List.prefix_refl text

theorem strip_length_le (piece : Bytes) : (strip piece).length ≤ piece.length := by
  have hfront := (List.dropWhile_suffix (l := piece.rdropWhile isSpace) isSpace).length_le
  have hback := (List.rdropWhile_prefix isSpace piece).length_le
  exact hfront.trans hback

theorem isBlank_iff : isBlank piece = true ↔ piece.rdropWhile isSpace = [] := by
  rw [isBlank, List.all_eq_true, List.rdropWhile_eq_nil_iff]

theorem stops_of_gap (hgap : ∀ b ∈ gap, b = bar ∨ b = 0) (front : Bytes) :
    Stops (front ++ 0 :: gap) := by
  induction gap using List.reverseRecOn with
  | nil => exact ⟨front, 0, rfl, isSpace_zero⟩
  | append_singleton gap b _ =>
    refine ⟨front ++ 0 :: gap, b, by simp, ?_⟩
    rcases hgap b (by simp) with rfl | rfl
    · decide
    · decide

theorem trim_cell (hpiece : IsToken bar piece) (hgap : ∀ b ∈ gap, b = bar ∨ b = 0)
    (hpre : pre = [] ∨ Stops pre) (post : Bytes) :
    (isBlank piece = true ∧ pre.length < piece.length ∧
      trim (pre ++ (piece ++ 0 :: (gap ++ post))) pre.length = none) ∨
    ∃ pre', (isBlank piece = true → piece.length ≤ pre.length) ∧
      trim (pre ++ (piece ++ 0 :: (gap ++ post))) pre.length = some (pre' ++ post) ∧
      pre'.length = pre.length + piece.length + 1 + gap.length ∧ Stops pre' ∧
      stringAt (pre' ++ post) pre.length = trimmedText piece ∧
      ∀ q, q + (stringAt (pre ++ (piece ++ 0 :: (gap ++ post))) q).length < pre.length →
        stringAt (pre' ++ post) q = leftOver q [(pre.length, piece)]
          (stringAt (pre ++ (piece ++ 0 :: (gap ++ post))) q) := by
  by_cases hblank : isBlank piece = true
  · have hspaces : ∀ c ∈ piece, isSpace c = true := List.all_eq_true.mp hblank
    have hpos := List.length_pos_iff.mpr hpiece.nonempty
    rcases hpre with rfl | ⟨front, b, rfl, hb⟩
    · exact .inl ⟨hblank, hpos, trim_blank_front hpiece.noZero hspaces _⟩
    · have htrim := trim_blank hpiece.noZero hpiece.nonempty hspaces hb front (gap ++ post)
      generalize front ++ [b] = pre at htrim ⊢
      by_cases hroom : piece.length ≤ pre.length
      · rw [if_pos hroom] at htrim
        have hlength : (pre.set (pre.length - piece.length) 0).length = pre.length :=
          List.length_set
        have hmem : pre.set (pre.length - piece.length) 0 ++ (piece ++ 0 :: gap) ++ post =
            pre.set (pre.length - piece.length) 0 ++ (piece ++ 0 :: (gap ++ post)) := by simp
        refine .inr ⟨pre.set (pre.length - piece.length) 0 ++ (piece ++ 0 :: gap), fun _ => hroom,
          hmem ▸ htrim, ?_, ?_, ?_, fun q _ => ?_⟩
        · rw [List.length_append, hlength, List.length_append, List.length_cons]
          omega
        · rw [← List.append_assoc]
          exact stops_of_gap hgap _
        · have hstring (front : Bytes) :
              stringAt (front ++ (piece ++ 0 :: (gap ++ post))) front.length = piece := by
            rw [stringAt_append, cstr_append hpiece.noZero]
          have hpiece' := hstring (pre.set (pre.length - piece.length) 0)
          rw [hlength] at hpiece'
          rw [hmem, hpiece', trimmedText, if_pos hblank]
        · rw [hmem, ← List.set_append_left _ _ (by omega), stringAt_set_zero]
          simp only [leftOver, List.foldl_cons, List.foldl_nil, hblank, true_and]
      · rw [if_neg hroom] at htrim
        exact .inl ⟨hblank, by omega, htrim⟩
  · have hvisible : piece.rdropWhile isSpace ≠ [] := fun h => hblank (isBlank_iff.mpr h)
    obtain ⟨text, hlength, htext, htrim⟩ :=
      trim_visible hpiece.noZero hvisible pre (gap ++ post)
    have hmem : pre ++ (text ++ 0 :: gap) ++ post = pre ++ (text ++ 0 :: (gap ++ post)) := by simp
    refine .inr ⟨pre ++ (text ++ 0 :: gap), fun h => absurd h hblank, hmem ▸ htrim, ?_, ?_, ?_,
      fun q hq => ?_⟩
    · rw [List.length_append, List.length_append, List.length_cons]
      omega
    · rw [← List.append_assoc]
      exact stops_of_gap hgap _
    · rw [hmem, stringAt_append, cstr_append_zero, htext, trimmedText, if_neg hblank]
    · rw [hmem, stringAt_front hq]
      simp [leftOver, hblank]

theorem offsets_ge (p : ℕ) (cells : List (Bytes × Bytes)) : ∀ q ∈ offsets p cells, p ≤ q := by
  induction cells generalizing p with
  | nil => exact fun _ h => absurd h List.not_mem_nil
  | cons cell cells ih =>
    refine List.forall_mem_cons.mpr ⟨le_rfl, fun q hq => ?_⟩
    have hge := ih (p + cell.1.length + 1 + cell.2.length) q hq
    omega

/-- What trimming the cells, which stand at `start`, does to the memory. -/
structure TrimmedCells (start : ℕ) (cells : List (Bytes × Bytes)) (mem mem' : Bytes) : Prop where
  front : ∀ q, q + (stringAt mem q).length < start →
    stringAt mem' q = leftOver q (placed start cells) (stringAt mem q)
  apart : (offsets start cells).Pairwise fun p q => p + (stringAt mem' p).length < q
  inside : ∀ q ∈ offsets start cells, q + (stringAt mem' q).length < mem'.length

/-- The pieces are trimmed one after the other, and each is left as the later ones allow. -/
theorem trimAll_cells (hcells : ∀ cell ∈ cells, IsToken bar cell.1 ∧ ∀ b ∈ cell.2, b = bar ∨ b = 0)
    (hpre : pre = [] ∨ Stops pre) (post : Bytes) :
    (∀ mem', (offsets pre.length cells).foldlM trim (pre ++ (joined 0 cells ++ post)) = some mem' →
      mem'.length = (pre ++ (joined 0 cells ++ post)).length ∧
        TrimmedCells pre.length cells (pre ++ (joined 0 cells ++ post)) mem') ∧
    (CommandsFit (placed pre.length cells) ↔ ∃ mem',
      (offsets pre.length cells).foldlM trim (pre ++ (joined 0 cells ++ post)) = some mem' ∧
        ∀ q ∈ offsets pre.length cells, Few (piecesAt space 0 (stringAt mem' q))) := by
  induction cells generalizing pre with
  | nil =>
    refine ⟨fun mem' h => ?_, iff_of_true trivial ⟨_, rfl, fun _ h => absurd h List.not_mem_nil⟩⟩
    obtain rfl := Option.some.inj h
    refine ⟨rfl, fun q _ => rfl, List.Pairwise.nil, fun _ h => absurd h List.not_mem_nil⟩
  | cons cell cells ih =>
    obtain ⟨piece, gap⟩ := cell
    obtain ⟨⟨hpiece, hgap⟩, hrest⟩ := List.forall_mem_cons.mp hcells
    dsimp only at hpiece hgap
    have hmem : pre ++ (joined 0 ((piece, gap) :: cells) ++ post) =
        pre ++ (piece ++ 0 :: (gap ++ (joined 0 cells ++ post))) := by simp
    rw [hmem]
    dsimp only [offsets, placed, CommandsFit]
    rw [List.foldlM_cons]
    rcases trim_cell hpiece hgap hpre (joined 0 cells ++ post) with
      ⟨hblank, hshort, htrim⟩ | ⟨pre', hroom, htrim, hlength, hstops, htext, hfront⟩
    · rw [htrim]
      refine ⟨fun mem' h => ?_, iff_of_false (fun h => ?_) none_fails⟩
      · exact absurd h.symm (Option.some_ne_none mem')
      · have hroom : piece.length ≤ pre.length := h.1 hblank
        omega
    · obtain ⟨hkept, hfit⟩ := ih hrest (.inr hstops)
      rw [htrim, ← hlength]
      dsimp only [Option.bind_some, Option.bind_eq_bind]
      generalize hwhole : pre ++ (piece ++ 0 :: (gap ++ (joined 0 cells ++ post))) = mem
        at htrim hfront
      have hsize : mem.length = (pre' ++ (joined 0 cells ++ post)).length := by
        rw [← hwhole]
        simp only [List.length_append, List.length_cons, hlength]
        omega
      have hoffsets : offsets pre.length ((piece, gap) :: cells) =
          pre.length :: offsets pre'.length cells := by
        rw [hlength]
        rfl
      have htrimmed : (trimmedText piece).length ≤ piece.length := by
        unfold trimmedText
        split
        · exact le_rfl
        · exact strip_length_le piece
      -- Where the string of this cell ends after every trim that follows.
      have hhere : ∀ mem', TrimmedCells pre'.length cells (pre' ++ (joined 0 cells ++ post)) mem' →
          stringAt mem' pre.length =
            leftOver pre.length (placed pre'.length cells) (trimmedText piece) ∧
          pre.length + (stringAt mem' pre.length).length < pre'.length := by
        intro mem' h
        have heq := h.front pre.length (by rw [htext]; omega)
        rw [htext] at heq
        have hle := (leftOver_begins pre.length (placed pre'.length cells)
          (trimmedText piece)).length_le
        rw [← heq] at hle
        exact ⟨heq, by omega⟩
      refine ⟨fun mem' h => ?_, ?_⟩
      · obtain ⟨hlast, hcellsAfter⟩ := hkept mem' h
        obtain ⟨-, hshort⟩ := hhere mem' hcellsAfter
        refine ⟨by omega, fun q hq => ?_, ?_, ?_⟩
        · have hfirst := hfront q hq
          have hle := (leftOver_begins q [(pre.length, piece)] (stringAt mem q)).length_le
          rw [← hfirst] at hle
          rw [hcellsAfter.front q (by omega), hfirst, placed, hlength]
          rfl
        · rw [hoffsets]
          refine List.pairwise_cons.mpr ⟨fun q hq => ?_, hcellsAfter.apart⟩
          have hge := offsets_ge pre'.length cells q hq
          omega
        · rw [hoffsets]
          refine List.forall_mem_cons.mpr ⟨?_, hcellsAfter.inside⟩
          rw [hlast, List.length_append]
          omega
      · constructor
        · intro h
          obtain ⟨-, hfew, hothers⟩ := h
          obtain ⟨mem', hfold, hall⟩ := hfit.mp hothers
          refine ⟨mem', hfold, List.forall_mem_cons.mpr ⟨?_, hall⟩⟩
          rw [(hhere mem' (hkept mem' hfold).2).1]
          exact hfew
        · intro h
          obtain ⟨mem', hfold, hall⟩ := h
          obtain ⟨hfew, hothers⟩ := List.forall_mem_cons.mp hall
          rw [(hhere mem' (hkept mem' hfold).2).1] at hfew
          exact ⟨hroom, hfew, hfit.mpr ⟨mem', hfold, hothers⟩⟩

/-! ### Splitting the commands -/

theorem zero_not_mem_stringAt (mem : Bytes) (p : ℕ) : (0 : Byte) ∉ stringAt mem p :=
  zero_not_mem_cstr _

/-- A command is split within its own string. -/
theorem split_command (delim : Byte) (hd : delim ≠ 0) (room : ℕ)
    (hinside : p + (stringAt mem p).length < mem.length) :
    ∃ mem' args, args.length = (piecesAt delim 0 (stringAt mem p)).length ∧
      mem'.length = mem.length ∧
      (∀ q, p + (stringAt mem p).length < q → stringAt mem' q = stringAt mem q) ∧
      strtokAll delim room mem p = if args.length < room then some (mem', args) else none := by
  obtain ⟨skip, cells, hsplits⟩ :=
    exists_splits hd (stringAt mem p) (zero_not_mem_stringAt mem p)
  obtain ⟨pre, post, hpre, hmem⟩ := stringAt_split hinside
  generalize stringAt mem p = text at *
  have hlength := hsplits.length
  rw [List.length_append] at hlength
  have hargs : (offsets (pre.length + skip.length) cells).length = cells.length := by
    rw [← placed_offsets, List.length_map, placed_length]
  refine ⟨pre ++ (skip ++ (joined 0 cells ++ post)), offsets (pre.length + skip.length) cells,
    ?_, ?_, fun q hq => ?_, ?_⟩
  · rw [hargs, hsplits.piecesAt, placed_length]
  · rw [hmem]
    simp only [List.length_append, List.length_cons]
    omega
  · have hbehind : (pre ++ (text ++ [0])).length ≤ q := by
      simp only [List.length_append, List.length_singleton]
      omega
    have hsame : (pre ++ (skip ++ joined 0 cells)).length = (pre ++ (text ++ [0])).length := by
      simp only [List.length_append, List.length_singleton]
      omega
    have hstring := stringAt_behind hsame hbehind post
    simp only [List.append_assoc, List.singleton_append] at hstring
    rw [hmem, hstring]
  · rw [hmem, ← hpre, hsplits.split, hargs]

theorem forkCommands_fit (commands : List ℕ) (mem : Bytes)
    (hapart : commands.Pairwise fun p q => p + (stringAt mem p).length < q)
    (hinside : ∀ p ∈ commands, p + (stringAt mem p).length < mem.length) :
    (∃ r, forkCommands mem commands = some r ∧ none ∉ r.2) ↔
      ∀ p ∈ commands, Few (piecesAt space 0 (stringAt mem p)) := by
  induction commands generalizing mem with
  | nil =>
    refine iff_of_true ⟨(mem, []), rfl, List.not_mem_nil⟩ fun _ h => absurd h List.not_mem_nil
  | cons p commands ih =>
    obtain ⟨hhere, hinside⟩ := List.forall_mem_cons.mp hinside
    obtain ⟨hlater, hapart⟩ := List.pairwise_cons.mp hapart
    obtain ⟨mem', args, hargs, hlength, hkept, hsplit⟩ :=
      split_command space (by decide) maxArgs hhere
    have hstrings : ∀ q ∈ commands, stringAt mem' q = stringAt mem q := fun q hq =>
      hkept q (hlater q hq)
    have hrest := ih mem' (hapart.imp_of_mem fun hp _ h => hstrings _ hp ▸ h)
      fun q hq => by rw [hstrings q hq, hlength]; exact hinside q hq
    have hexec : redirections (args.map (stringAt mem')) ≠ none ↔ 1 ≤ args.length := by
      rw [ne_eq, redirections_eq_none, List.map_eq_nil_iff, ← List.length_eq_zero_iff]
      omega
    rw [List.forall_mem_cons, forkCommands, hsplit, Few, ← hargs, ← hexec]
    by_cases hroom : args.length < maxArgs
    · rw [if_pos hroom, and_iff_left hroom]
      dsimp only [Option.bind_some]
      constructor
      · intro h
        obtain ⟨r, hmap, hnone⟩ := h
        obtain ⟨r', hfork, rfl⟩ := Option.map_eq_some_iff.mp hmap
        rw [List.mem_cons, not_or] at hnone
        refine ⟨Ne.symm hnone.1, fun q hq => ?_⟩
        exact hstrings q hq ▸ hrest.mp ⟨r', hfork, hnone.2⟩ q hq
      · intro h
        obtain ⟨hargsSome, hfew⟩ := h
        obtain ⟨r, hfork, hnone⟩ := hrest.mpr fun q hq => (hstrings q hq).symm ▸ hfew q hq
        refine ⟨_, Option.map_eq_some_iff.mpr ⟨r, hfork, rfl⟩, ?_⟩
        rw [List.mem_cons, not_or]
        exact ⟨hargsSome.symm, hnone⟩
    · rw [if_neg hroom]
      exact iff_of_false none_fails fun h => hroom h.1.2

end Pieces

/-- The loops of `main` stay within `commands` and `args`, and the children within what has been
written, exactly for the lines that fit. -/
theorem inBounds_iff (line extra : Bytes) (noZero : (0 : Byte) ∉ line) :
    InBounds (line ++ 0 :: extra) ↔ LineFits line := by
  obtain ⟨skip, cells, hsplits⟩ := exists_splits (by decide : bar ≠ 0) line noZero
  have hsplit : strtokAll bar maxArgs (line ++ 0 :: extra) 0 = _ := hsplits.split [] extra maxArgs
  have hpieces := hsplits.piecesAt 0
  have hpre : skip = [] ∨ Stops skip := by
    rcases List.eq_nil_or_concat skip with hempty | ⟨front, b, heq⟩
    · exact .inl hempty
    · rw [List.concat_eq_append] at heq
      refine .inr ⟨front, b, heq, ?_⟩
      rcases hsplits.front b (by simp [heq]) with rfl | rfl
      · decide
      · decide
  obtain ⟨hkept, hfit⟩ := trimAll_cells hsplits.tokens hpre extra
  rw [List.length_nil, Nat.zero_add, List.nil_append] at hsplit
  rw [Nat.zero_add] at hpieces
  have hnames : offsets skip.length cells = [] ↔ ¬ 1 ≤ cells.length := by
    rw [← placed_offsets, List.map_eq_nil_iff, ← List.length_eq_zero_iff, placed_length]
    omega
  rw [inBounds_iff_parse, LineFits, hpieces, hfit, Few, placed_length, parse, hsplit]
  by_cases hroom : cells.length < maxArgs
  · rw [if_pos hroom, and_iff_left hroom]
    dsimp only [Option.bind_some]
    by_cases hempty : offsets skip.length cells = []
    · rw [if_pos hempty]
      exact iff_of_false none_fails fun h => hnames.mp hempty h.1
    · rw [if_neg hempty, and_iff_right (not_not.mp (hnames.not.mp hempty))]
      cases hfold : (offsets skip.length cells).foldlM trim (skip ++ (joined 0 cells ++ extra)) with
      | none => exact iff_of_false none_fails none_fails
      | some mem' =>
        obtain ⟨-, htrimmed⟩ := hkept mem' hfold
        have hfork := forkCommands_fit (offsets skip.length cells) mem' htrimmed.apart
          htrimmed.inside
        rw [Option.bind_some, hfork]
        refine ⟨fun h => ⟨mem', rfl, h⟩, fun h => ?_⟩
        obtain ⟨mem'', heq, hfew⟩ := h
        exact (Option.some.inj heq) ▸ hfew
  · rw [if_neg hroom]
    exact iff_of_false none_fails fun h => hroom h.1.2

/-- `ls | wc -l`. -/
theorem pipeline_inBounds :
    InBounds ([108, 115, 32, bar, 32, 119, 99, 32, 45, 108, newline] ++ [0]) :=
  (inBounds_iff _ [] (by decide)).mpr (by decide)

/-- Twenty commands of one letter. -/
def twentyCommands : Bytes := (List.replicate 19 [97, bar]).flatten ++ [97, newline]

/-- The null pointer behind twenty commands does not fit. -/
theorem commands_overrun : ¬ ∀ line extra, line.length < maxCommandLen → (0 : Byte) ∉ line →
    InBounds (line ++ 0 :: extra) := by
  intro h
  have hbounds := h twentyCommands [] (by decide) (by decide)
  obtain ⟨r, hparse, -⟩ := (inBounds_iff_parse _).mp hbounds
  have hnone : parse (twentyCommands ++ [0]) = none := by rfl
  exact absurd (hnone.symm.trans hparse).symm (Option.some_ne_none r)

end AdvancedCProjects.Terminal
