import AdvancedCProjects.Base.Tally
import AdvancedCProjects.Copier.Effects
import AdvancedCProjects.Copier.Nesting

/-!
# The table of file types (program.c:102-143, 236-299, 597-606)

The extensions of the regular files, the text for a file without one and the text
for a FIFO are keys of one table. A thread counts the key of a file before it adds
the task.
-/

namespace AdvancedCProjects.Copier
open Base

def fifoKey : Bytes := utf8 "fifo"

def unidentifiedKey : Bytes := utf8 "unidentified file"

/-- What `main` prints for a key; 0 if it prints nothing. -/
def Hashtable.printedFor (h : Hashtable) (key : Bytes) : ℤ := (h.printed.lookup key).getD 0

namespace State

/-- The files that tasks were added for and whose name is such. -/
def enqueued (s : State) (p : Bytes → Bool) : ℕ := s.added.countP fun a => p a.name

def withExtension (s : State) (e : Bytes) : ℕ := s.enqueued fun name => 46 :: e <:+ name

def withoutDot (s : State) : ℕ := s.enqueued fun name => 46 ∉ name

/-- The table is right for FIFOs, for files without a dot and for these extensions. -/
structure TableRight (s : State) (keys : Bytes → Prop) : Prop where
  fifo : s.stats.hashtable.printedFor fifoKey = s.stats.fifosCopied
  unidentified : s.stats.hashtable.printedFor unidentifiedKey = s.withoutDot
  other : ∀ e, keys e → e ≠ fifoKey → e ≠ unidentifiedKey →
    s.stats.hashtable.printedFor e = s.withExtension e

/-- No file has one of the two texts as its extension, as far as an `int` can tell,
and no number is beyond an `int`. -/
structure KeysApart (s : State) : Prop where
  fifo : 2 ^ 32 ∣ s.withExtension fifoKey
  unidentified : 2 ^ 32 ∣ s.withExtension unidentifiedKey
  withoutDot : s.withoutDot < 2 ^ 31
  withExtension : ∀ e, 46 ∉ e → e ≠ fifoKey → e ≠ unidentifiedKey → s.withExtension e < 2 ^ 31

end State

/-! ### Keys -/

theorem fileExtension_eq_iff {name e : Bytes} (he : 46 ∉ e) (hu : e ≠ unidentifiedKey) :
    fileExtension name = e ↔ 46 :: e <:+ name := by
  unfold fileExtension
  split
  · next hdot =>
    rw [takeWhile_reverse_eq_iff hdot]
    exact and_iff_right he
  · next hdot =>
    exact iff_of_false (Ne.symm hu) fun hsuffix => hdot (hsuffix.subset List.mem_cons_self)

theorem fileExtension_unidentified_iff {name : Bytes} :
    fileExtension name = unidentifiedKey ↔ 46 ∉ name ∨ 46 :: unidentifiedKey <:+ name := by
  have hfree : 46 ∉ unidentifiedKey := by decide
  unfold fileExtension
  split
  · next hdot =>
    rw [takeWhile_reverse_eq_iff hdot]
    exact ⟨fun h => .inr h.2, fun h => ⟨hfree, h.resolve_left fun hno => hno hdot⟩⟩
  · next hdot => exact iff_of_true rfl (.inl hdot)

theorem fileExtension_free (name : Bytes) : 46 ∉ fileExtension name := by
  unfold fileExtension
  split
  · next hdot => exact ((takeWhile_reverse_eq_iff hdot).mp rfl).1
  · decide

namespace Hashtable.Counts
variable {h : Hashtable} {keys : List Bytes}

theorem printedFor_eq (hc : Counts h keys) (key : Bytes) :
    h.printedFor key = wrapInt 4 (keys.count key) := by
  have hperm := hc.printed_perm
  have hnodup : (h.printed.map Prod.fst).Nodup := by
    rw [(hperm.map Prod.fst).nodup_iff, List.map_map]
    simpa [Function.comp_def] using keys.nodup_dedup
  unfold printedFor
  by_cases hmem : key ∈ keys
  · have hnode : (key, wrapInt 4 (keys.count key)) ∈ h.printed :=
      hperm.mem_iff.mpr (List.mem_map.mpr ⟨key, List.mem_dedup.mpr hmem, rfl⟩)
    rw [(lookup_eq_some_iff_mem hnodup).mpr hnode, Option.getD_some]
  · have hnone : h.printed.lookup key = none := by
      refine List.lookup_eq_none_iff.mpr fun node hnode => ?_
      obtain ⟨key', hkey', rfl⟩ := List.mem_map.mp (hperm.mem_iff.mp hnode)
      have hne : key ≠ key' := fun heq => hmem (heq ▸ List.mem_dedup.mp hkey')
      simpa using hne
    rw [hnone, Option.getD_none, List.count_eq_zero.mpr hmem]
    exact (wrapInt_length (by norm_num)).symm

end Hashtable.Counts

/-! ### What has been counted -/

def extensions (added : List Added) : List Bytes := added.map fun a => fileExtension a.name

/-- The keys of the files that are not added yet. -/
def State.underway (s : State) : List Bytes := s.traversals.flatMap fun th => th.pc.keys

/-- The table has the keys of the files that were added and of those underway, and
one for each FIFO. -/
structure FiledAs (s : State) (keys : List Bytes) (fifos : ℕ) : Prop where
  counts : Hashtable.Counts s.stats.hashtable keys
  fifosCopied : s.stats.fifosCopied = wrapInt 4 fifos
  calls : ∀ q, keys.count q = (extensions s.added).count q + s.underway.count q +
    (List.replicate fifos fifoKey).count q

def Filed (s : State) : Prop := ∃ keys fifos, FiledAs s keys fifos

section Steps
variable {size threads i : ℕ} {s t u : State} {th th' : Traversal} {created : List Traversal}
  {keys : List Bytes} {fifos : ℕ} {r : Reply} {pc : TraversalPc}

theorem underway_moved (hth : s.traversals[i]? = some th)
    (ht : t.traversals = s.traversals.set i th' ++ created)
    (hcreated : ∀ child ∈ created, child.pc = .opendir) (key : Bytes) :
    t.underway.count key + th.pc.keys.count key =
      s.underway.count key + th'.pc.keys.count key := by
  have hnone : (created.flatMap fun th => th.pc.keys) = [] := by
    refine List.flatMap_eq_nil_iff.mpr fun child hchild => ?_
    rw [hcreated child hchild]
    rfl
  have hset := count_flatMap_set (f := fun th => th.pc.keys) hth th' key
  rw [State.underway, ht, List.flatMap_append, hnone, List.append_nil]
  exact hset

theorem FiledAs.same (h : FiledAs s keys fifos) (htable : t.stats.hashtable = s.stats.hashtable)
    (hfifos : t.stats.fifosCopied = s.stats.fifosCopied)
    (hcount : ∀ q, (extensions t.added).count q + t.underway.count q =
      (extensions s.added).count q + s.underway.count q) : FiledAs t keys fifos where
  counts := htable ▸ h.counts
  fifosCopied := hfifos.trans h.fifosCopied
  calls q := by rw [h.calls, hcount]

theorem FiledAs.insert (h : FiledAs s keys fifos) (key : Bytes)
    (hstats : t.stats = s.stats.insert key) (hadded : t.added = s.added)
    (hunderway : ∀ q, t.underway.count q = s.underway.count q + [key].count q) :
    FiledAs t (keys ++ [key]) fifos := by
  refine ⟨?_, ?_, fun q => ?_⟩
  · rw [hstats]
    exact h.counts.countKey
  · rw [hstats]
    exact h.fifosCopied
  · have hcalls := h.calls q
    rw [List.count_append, hunderway, hadded]
    omega

theorem FiledAs.fifo (h : FiledAs s keys fifos) (hstats : t.stats = s.stats.traversal .fifo)
    (hadded : t.added = s.added) (hunderway : ∀ q, t.underway.count q = s.underway.count q) :
    FiledAs t (keys ++ [fifoKey]) (fifos + 1) := by
  refine ⟨?_, ?_, fun q => ?_⟩
  · rw [hstats]
    exact h.counts.countKey
  · rw [hstats]
    show wrapInt 4 (s.stats.fifosCopied + 1) = _
    rw [h.fifosCopied, Hashtable.Counts.wrapInt_succ]
  · have hcalls := h.calls q
    rw [List.count_append, hunderway, hadded, List.replicate_succ', List.count_append]
    omega

theorem Filed.traverse (h : Filed s) (hth : s.traversals[i]? = some th)
    (hn : s.traverse size i th th.pc r = some t) : Filed t := by
  obtain ⟨keys, fifos, h⟩ := h
  obtain ⟨th', created, ht, hcreated, hstep⟩ := State.traverse_moved hth hn rfl
  have hmoved := underway_moved hth ht hcreated
  generalize hpc : th.pc = pc at hstep hmoved
  have same (hkeys : th'.pc.keys = pc.keys) (htable : t.stats.hashtable = s.stats.hashtable)
      (hfifos : t.stats.fifosCopied = s.stats.fifosCopied) (hadded : t.added = s.added) :
      Filed t := by
    refine ⟨keys, fifos, h.same htable hfifos fun q => ?_⟩
    have hq := hmoved q
    rw [hkeys] at hq
    rw [hadded]
    omega
  cases hstep with
  | onward _ _ hkeys _ hsame =>
    obtain ⟨hstats, -, hadded⟩ := hsame
    exact same hkeys (by rw [hstats]) (by rw [hstats]) hadded
  | entry _ hsame | finished hsame | openDest hsame =>
    obtain ⟨hstats, -, hadded⟩ := hsame
    exact same rfl (by rw [hstats]) (by rw [hstats]) hadded
  | insert hstats _ hadded => exact ⟨_, fifos, h.insert _ hstats hadded hmoved⟩
  | @add file _ _ hstats _ hadded =>
    refine ⟨keys, fifos, h.same (by rw [hstats]) (by rw [hstats]) fun q => ?_⟩
    have hq : t.underway.count q + [fileExtension file.name].count q = s.underway.count q :=
      hmoved q
    rw [hadded, extensions, extensions, List.map_append, List.count_append]
    simp only [List.map_cons, List.map_nil]
    omega
  | @count o _ _ hstats _ hadded =>
    cases o with
    | fifo => exact ⟨_, _, h.fifo hstats hadded hmoved⟩
    | _ => exact same rfl (by rw [hstats]; rfl) (by rw [hstats]; rfl) hadded

theorem Filed.frame (h : Filed s) (hstats : t.stats = s.stats) (hadded : t.added = s.added)
    (hunderway : t.underway = s.underway) : Filed t := by
  obtain ⟨keys, fifos, h⟩ := h
  refine ⟨keys, fifos, h.same (by rw [hstats]) (by rw [hstats]) fun q => ?_⟩
  rw [hadded, hunderway]

theorem State.WakesTraversal.underway (h : s.WakesTraversal u) : u.underway = s.underway := by
  cases h with
  | nobody => rfl
  | one hj hpc => exact flatMap_set_congr hj (by rw [hpc]; rfl)

theorem CopyStep.table {pc pc' : WorkerPc} {stats : Statistics} {written : ℕ}
    (h : CopyStep s pc pc' stats written) :
    stats.hashtable = s.stats.hashtable ∧ stats.fifosCopied = s.stats.fifosCopied := by
  cases h <;> exact ⟨rfl, rfl⟩

theorem Filed.work {pc : WorkerPc} (h : Filed s) (hn : s.work size i pc r = some t) :
    Filed t := by
  obtain ⟨keys, fifos, h⟩ := h
  obtain ⟨pc'', -, hstep⟩ := State.work_copyStep hn
  obtain ⟨pc', u, hmove, rfl⟩ := State.work_move hn
  obtain ⟨-, -, v, hv, -, hts⟩ := hmove.wakes
  have hunderway : (u.workerAt i pc').underway = s.underway := by
    have hwakes := hv.underway
    rw [State.underway, ← hts] at hwakes
    exact hwakes
  refine ⟨keys, fifos, h.same hstep.table.1 hstep.table.2 fun q => ?_⟩
  rw [hunderway]
  show (extensions u.added).count q + _ = _
  rw [hmove.added]

theorem Filed.main {mpc' : MainPc} (h : Filed s) (hl : Locked s)
    (hmove : MainMove threads s s.main mpc' u) : Filed (u.mainAt mpc') := by
  generalize hm : s.main = mpc at hmove
  cases hmove with
  | createRoot =>
    refine h.frame rfl rfl ?_
    rw [State.underway, State.underway, hl.fresh hm]
    rfl
  | _ => exact h.frame rfl rfl rfl

theorem Filed.step {a : Action} (h : Filed s) (hl : Locked s)
    (hn : (copier size threads).next s a = some t) : Filed t := by
  cases copier_acts hn with
  | main hmove => exact h.main hl hmove
  | traverse hth hn => exact h.traverse hth hn
  | work _ hn => exact h.work hn
  | spuriousTraversal hu =>
    have hunderway := hu.underway
    cases hu <;> exact h.frame rfl rfl hunderway
  | spuriousWorker hu => cases hu <;> exact h.frame rfl rfl rfl

end Steps

/-! ### What the keys count -/

section Table
variable {size threads : ℕ} {s : State} {e : Bytes}

theorem count_extensions (added : List Added) (key : Bytes) :
    (extensions added).count key =
      added.countP fun a => decide (fileExtension a.name = key) := by
  rw [extensions, List.count, List.countP_map]
  exact List.countP_congr fun a _ => by simp

theorem count_extension (he : 46 ∉ e) (hu : e ≠ unidentifiedKey) :
    (extensions s.added).count e = s.withExtension e := by
  rw [count_extensions]
  exact List.countP_congr fun a _ => by simp [fileExtension_eq_iff he hu]

theorem count_unidentified : (extensions s.added).count unidentifiedKey =
    s.withExtension unidentifiedKey + s.withoutDot := by
  rw [count_extensions, State.withExtension, State.withoutDot, State.enqueued, State.enqueued,
    ← countP_or]
  · exact List.countP_congr fun a _ => by simp [fileExtension_unidentified_iff, or_comm]
  · intro a ⟨hsuffix, hno⟩
    exact of_decide_eq_true hno ((of_decide_eq_true hsuffix).subset List.mem_cons_self)

theorem count_dotted (he : 46 ∈ e) : (extensions s.added).count e = 0 := by
  refine List.count_eq_zero.mpr fun hmem => ?_
  obtain ⟨a, -, heq⟩ := List.mem_map.mp hmem
  exact fileExtension_free a.name (heq ▸ he)

theorem dotted_iff : (∀ e, 46 ∈ e → s.withExtension e = 0) ↔
    ∀ a ∈ s.added, a.name.count 46 ≤ 1 := by
  constructor
  · intro h a ha
    by_contra hmany
    obtain ⟨e, he, hsuffix⟩ := exists_suffix_iff.mpr (Nat.lt_of_not_le hmany)
    exact List.countP_eq_zero.mp (h e he) a ha (decide_eq_true hsuffix)
  · intro h e he
    refine List.countP_eq_zero.mpr fun a ha hsuffix => ?_
    have hmany := exists_suffix_iff.mp ⟨e, he, of_decide_eq_true hsuffix⟩
    have hone := h a ha
    omega

end Table

/-! ### What `main` prints -/

section Printed
variable {s : State} {keys : List Bytes} {fifos : ℕ} {e : Bytes}

theorem FiledAs.printedFor (h : FiledAs s keys fifos) (hdone : s.underway = []) (e : Bytes) :
    s.stats.hashtable.printedFor e = wrapInt 4
      ((extensions s.added).count e + (List.replicate fifos fifoKey).count e : ℕ) := by
  rw [h.counts.printedFor_eq, h.calls, hdone, List.count_nil, Nat.add_zero]

theorem FiledAs.fifoCounter_iff (h : FiledAs s keys fifos) (hdone : s.underway = []) :
    s.stats.hashtable.printedFor fifoKey = s.stats.fifosCopied ↔
      2 ^ 32 ∣ s.withExtension fifoKey := by
  rw [h.printedFor hdone, h.fifosCopied, List.count_replicate_self,
    count_extension (by decide) (by decide)]
  exact wrapInt_add_eq_iff

theorem count_fifos (he : e ≠ fifoKey) : (List.replicate fifos fifoKey).count e = 0 := by
  refine List.count_eq_zero.mpr fun hmem => he ?_
  exact (List.mem_replicate.mp hmem).2

theorem FiledAs.unidentified_iff (h : FiledAs s keys fifos) (hdone : s.underway = []) :
    s.stats.hashtable.printedFor unidentifiedKey = s.withoutDot ↔
      s.withoutDot < 2 ^ 31 ∧ 2 ^ 32 ∣ s.withExtension unidentifiedKey := by
  rw [h.printedFor hdone, count_fifos (by decide), Nat.add_zero, count_unidentified]
  exact wrapInt_add_eq_self_iff

theorem FiledAs.other_iff (h : FiledAs s keys fifos) (hdone : s.underway = []) (hdot : 46 ∉ e)
    (hfifo : e ≠ fifoKey) (hunidentified : e ≠ unidentifiedKey) :
    s.stats.hashtable.printedFor e = s.withExtension e ↔ s.withExtension e < 2 ^ 31 := by
  rw [h.printedFor hdone, count_fifos hfifo, Nat.add_zero, count_extension hdot hunidentified]
  exact wrapInt_eq_iff

theorem FiledAs.dotted_eq (h : FiledAs s keys fifos) (hdone : s.underway = []) (hdot : 46 ∈ e) :
    s.stats.hashtable.printedFor e = 0 := by
  have hfifo : e ≠ fifoKey := by
    intro heq
    rw [heq] at hdot
    exact absurd hdot (by decide)
  rw [h.printedFor hdone, count_fifos hfifo, count_dotted hdot]
  exact wrapInt_length (by norm_num)

theorem FiledAs.tableRight_iff (h : FiledAs s keys fifos) (hdone : s.underway = []) :
    s.TableRight (46 ∉ ·) ↔ s.KeysApart := by
  constructor
  · intro ht
    obtain ⟨hrange, hdvd⟩ := (h.unidentified_iff hdone).mp ht.unidentified
    exact ⟨(h.fifoCounter_iff hdone).mp ht.fifo, hdvd, hrange, fun e hdot hfifo hunidentified =>
      (h.other_iff hdone hdot hfifo hunidentified).mp (ht.other e hdot hfifo hunidentified)⟩
  · intro hk
    refine ⟨(h.fifoCounter_iff hdone).mpr hk.fifo,
      (h.unidentified_iff hdone).mpr ⟨hk.withoutDot, hk.unidentified⟩, ?_⟩
    intro e hdot hfifo hunidentified
    exact (h.other_iff hdone hdot hfifo hunidentified).mpr
      (hk.withExtension e hdot hfifo hunidentified)

/-- A text with a dot in it is no key, but there may be names that end in it. -/
theorem FiledAs.tableRight_dotted_iff (h : FiledAs s keys fifos) (hdone : s.underway = []) :
    s.TableRight (fun _ => True) ↔ s.TableRight (46 ∉ ·) ∧ ∀ a ∈ s.added, a.name.count 46 ≤ 1 := by
  rw [← dotted_iff]
  constructor
  · intro ht
    refine ⟨⟨ht.fifo, ht.unidentified, fun e _ => ht.other e trivial⟩, fun e hdot => ?_⟩
    have hfifo : e ≠ fifoKey := fun heq => absurd (heq ▸ hdot) (by decide)
    have hunidentified : e ≠ unidentifiedKey := fun heq => absurd (heq ▸ hdot) (by decide)
    have hother := ht.other e trivial hfifo hunidentified
    rw [h.dotted_eq hdone hdot] at hother
    exact_mod_cast hother.symm
  · intro ⟨ht, hnone⟩
    refine ⟨ht.fifo, ht.unidentified, fun e _ hfifo hunidentified => ?_⟩
    by_cases hdot : 46 ∈ e
    · rw [h.dotted_eq hdone hdot, hnone e hdot, Nat.cast_zero]
    · exact ht.other e hdot hfifo hunidentified

end Printed

/-! ### Whole runs -/

theorem filed_inductive (size threads : ℕ) : (copier size threads).Inductive (fun _ _ => True)
    fun s => Nested s ∧ Filed s := by
  refine (nested_inductive size threads).and (fun s hs => ?_) fun s a t hs _ h _ hn => ?_
  · refine ⟨[], 0, ?_, ?_, fun q => ?_⟩
    · rw [hs.stats]
      exact .createHashtable
    · rw [hs.stats]
      exact (wrapInt_length (by norm_num)).symm
    · rw [hs.added, State.underway, hs.traversals]
      rfl
  · exact h.step hs.locked hn

theorem Nested.underway {s : State} (h : Nested s) (hm : s.main = .report) : s.underway = [] := by
  refine List.flatMap_eq_nil_iff.mpr fun th hth => ?_
  rw [h.exited_at_report hm hth]
  rfl

/-- The table is right just when no file has one of the two texts as its extension and
the numbers are those of an `int`; of the texts with a dot in them, too, when no name
has two dots. -/
theorem table_right_iff {size threads : ℕ} {s : State} (hr : (copier size threads).Reachable s)
    (hm : s.main = .report) :
    (s.TableRight (46 ∉ ·) ↔ s.KeysApart) ∧
    (s.TableRight (fun _ => True) ↔ s.KeysApart ∧ ∀ a ∈ s.added, a.name.count 46 ≤ 1) := by
  obtain ⟨hn, keys, fifos, h⟩ := (filed_inductive size threads).holds hr
  have hdone := hn.underway hm
  have hright := h.tableRight_iff hdone
  refine ⟨hright, ?_⟩
  rw [h.tableRight_dotted_iff hdone, hright]

def oneNamed (name : Bytes) : List Reply :=
  [.ok, .entry name, .mode .regular, .fd 3, .fd 4, .ok, .ok, .ok, .ok, .wake none, .ok, .ok, .ok,
    .ok, .failure]

def emptyFile : List Reply :=
  [.ok, .ok, .ok, .ok, .ok, .count 0, .ok, .ok, .wake none, .ok, .ok, .ok, .ok, .ok, .wake none]

def oneNamedRun (name : Bytes) : List Action :=
  List.replicate 3 (.main .ok) ++ (oneNamed name).map (.traverse 0) ++
    List.replicate 5 (.main .ok) ++ emptyFile.map (.work 0) ++ List.replicate 2 (.main .ok)

def textState : State := ((copier 2 1).run .init (oneNamedRun (utf8 "a.txt"))).get (by decide)

theorem textState_right : textState.TableRight (46 ∉ ·) := by
  have hr : (copier 2 1).Reachable textState :=
    Machine.Reachable.run (.start State.init_start) _ (Option.some_get _).symm
  have hone (e : Bytes) : textState.withExtension e < 2 ^ 31 := by
    have hlength : textState.added.length = 1 := by decide
    have hle : textState.withExtension e ≤ textState.added.length := List.countP_le_length
    omega
  have hapart : textState.KeysApart :=
    ⟨by decide, by decide, by decide, fun e _ _ _ => hone e⟩
  exact (table_right_iff hr (by decide)).1.mpr hapart

def fifoNamedState : State :=
  ((copier 2 1).run .init (oneNamedRun (utf8 "a.fifo"))).get (by decide)

theorem fifoNamed_counted : ¬ ∀ s, (copier 2 1).Reachable s → s.main = .report →
    s.TableRight (46 ∉ ·) := by
  intro h
  have hr : (copier 2 1).Reachable fifoNamedState :=
    Machine.Reachable.run (.start State.init_start) _ (Option.some_get _).symm
  have hright := (h fifoNamedState hr (by decide)).fifo
  exact absurd hright (by decide)

end AdvancedCProjects.Copier
