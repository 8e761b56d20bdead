import AdvancedCProjects.Bibak.Watch

/-!
# Three variables for one table (BibakBOXClient.c:210-273, 392-448)

`check_create` and `check_update` work on the parameter of the loop,
`check_delete` on the global; the number of entries to scan is a copy made
before the loop. A creation replaces the table through a parameter of
`check_create`, so that neither the loop nor the global learn of it.
-/

namespace AdvancedCProjects.Bibak
open Base

/-- The address of the table the last rescan has filled. -/
def lastRescan (_ : Client) (a : Action) (last : ℕ) : ℕ :=
  match a with
  | .rescan addr _ => addr
  | .env _ | .poll => last

def watchRecorded (base : Path) : Machine (Client × ℕ) Action :=
  (watch base).recorded Client.fileInfos lastRescan

theorem watch_recorded {base : Path} {s : Client} (h : (watch base).Reachable s) :
    ∃ last, (watchRecorded base).Reachable (s, last) :=
  Machine.Reaches.recorded h

/-- All read the table of the last rescan, and it is in memory. -/
structure SameTable (s : Client × ℕ) : Prop where
  param : s.1.param = s.1.fileInfos
  last : s.1.fileInfos = s.2
  live : (s.1.heap s.2).isSome
  count : s.1.count = s.1.globCount

def OneSnapshot (s : Client × ℕ) : Prop := s.1.pc = .checkCreate → SameTable s

def OpensEntry (base : Path) (tree : Listing) (i : ℕ) : Option Block → Prop
  | some b => (tree.stat base (b i).filepath).isSome
  | none => True

/-- `check_update` can open the entry it looks at. -/
def Opens (base : Path) (s : Client) : Pc → Prop
  | .checkUpdate i => i < s.count → OpensEntry base s.tree i (s.heap s.param)
  | _ => True

/-- A rescan gets the block that was freed and finds as many files as there were
when the loop started; no entry is dropped. -/
def Steady (base : Path) (s : Client) : Action → Prop
  | .rescan addr junk => addr = s.param ∧ (scan base s.tree junk).count = s.count
  | .poll => Opens base s s.pc
  | .env _ => True

instance (base : Path) (tree : Listing) (i : ℕ) : DecidablePred (OpensEntry base tree i)
  | some b => inferInstanceAs (Decidable ((tree.stat base (b i).filepath).isSome = true))
  | none => inferInstanceAs (Decidable True)

instance (base : Path) (s : Client) : DecidablePred (Opens base s)
  | .checkUpdate i =>
    inferInstanceAs (Decidable (i < s.count → OpensEntry base s.tree i (s.heap s.param)))
  | .checkCreate | .created _ | .createRescan _ | .checkDelete | .deleted _ | .deleteRescan _
  | .statEntry _ | .updated _ | .crashed => inferInstanceAs (Decidable True)

instance (base : Path) (s : Client) : DecidablePred (Steady base s)
  | .rescan addr junk =>
    inferInstanceAs (Decidable (addr = s.param ∧ (scan base s.tree junk).count = s.count))
  | .poll => inferInstanceAs (Decidable (Opens base s s.pc))
  | .env _ => inferInstanceAs (Decidable True)

/-! ### What the steps keep -/

section Steps
variable {base : Path} {s t : Client} {last addr : ℕ} {junk : Block}

theorem isSome_update {heap : ℕ → Option Block} {p : ℕ} {b : Block} (hb : heap p = some b)
    (b' : Block) (a : ℕ) : (Function.update heap p (some b') a).isSome = (heap a).isSome := by
  by_cases ha : a = p
  · subst ha
    simp [hb]
  · rw [Function.update_of_ne ha]

structure SameCells (s t : Client) : Prop where
  param : t.param = s.param
  fileInfos : t.fileInfos = s.fileInfos
  count : t.count = s.count
  heap : ∀ a, (t.heap a).isSome = (s.heap a).isSome

theorem SameCells.goto (pc : Pc) (sent : List Message) :
    SameCells s { s with pc := pc, sent := sent } := ⟨rfl, rfl, rfl, fun _ => rfl⟩

theorem checkUpdate_cells (i : ℕ) : SameCells s (s.checkUpdate base i) ∧
    (Opens base s (.checkUpdate i) → (s.checkUpdate base i).globCount = s.globCount) := by
  unfold Client.checkUpdate
  by_cases hi : i ≥ s.count
  · rw [if_pos hi]
    exact ⟨.goto _ _, fun _ => rfl⟩
  · rw [if_neg hi]
    cases hb : s.heap s.param with
    | none => exact ⟨.goto _ _, fun _ => rfl⟩
    | some b =>
      simp only
      cases hstat : s.tree.stat base (b i).filepath with
      | some f => exact ⟨.goto _ _, fun _ => rfl⟩
      | none =>
        refine ⟨⟨rfl, rfl, rfl, isSome_update hb _⟩, fun hopens => ?_⟩
        have hopen := hopens (by omega)
        simp [OpensEntry, hb, hstat] at hopen

theorem statEntry_cells (i : ℕ) : SameCells s (s.statEntry base i) ∧
    (s.statEntry base i).globCount = s.globCount := by
  unfold Client.statEntry
  cases hb : s.heap s.param with
  | none => exact ⟨.goto _ _, rfl⟩
  | some b =>
    simp only
    split
    · exact ⟨.goto _ _, rfl⟩
    · split
      · exact ⟨⟨rfl, rfl, rfl, isSome_update hb _⟩, rfl⟩
      · split
        · exact ⟨⟨rfl, rfl, rfl, isSome_update hb _⟩, rfl⟩
        · exact ⟨.goto _ _, rfl⟩

theorem checkCreate_cells : SameCells s (s.checkCreate base) ∧
    (s.checkCreate base).globCount = s.globCount := by
  unfold Client.checkCreate
  dsimp only
  repeat' split
  all_goals exact ⟨.goto _ _, rfl⟩

theorem checkDelete_cells : SameCells s (s.checkDelete base) ∧
    (s.checkDelete base).globCount = s.globCount := by
  unfold Client.checkDelete
  dsimp only
  repeat' split
  all_goals exact ⟨.goto _ _, rfl⟩

theorem reportUpdate_cells (i : ℕ) : SameCells s (s.reportUpdate base i) ∧
    (s.reportUpdate base i).globCount = s.globCount := by
  unfold Client.reportUpdate
  split
  all_goals exact ⟨.goto _ _, rfl⟩

theorem poll_cells (hn : (watch base).next s .poll = some t) :
    SameCells s t ∧ (Opens base s s.pc → t.globCount = s.globCount) := by
  have always {t : Client} (h : SameCells s t ∧ t.globCount = s.globCount) :
      SameCells s t ∧ (Opens base s s.pc → t.globCount = s.globCount) := ⟨h.1, fun _ => h.2⟩
  cases watch_move hn with
  | checkCreate hpc => exact always checkCreate_cells
  | created hpc => exact always ⟨.goto _ _, rfl⟩
  | checkDelete hpc => exact always checkDelete_cells
  | deleted hpc => exact always ⟨.goto _ _, rfl⟩
  | checkUpdate hpc => exact hpc ▸ checkUpdate_cells _
  | statEntry hpc => exact always (statEntry_cells _)
  | updated hpc => exact always (reportUpdate_cells _)

theorem SameTable.step {s t : Client × ℕ} {a : Action} (h : SameTable s) (hok : Steady base s.1 a)
    (hn : (watchRecorded base).next s a = some t) : SameTable t := by
  obtain ⟨u, hu, rfl⟩ := Option.map_eq_some_iff.mp hn
  cases a with
  | env tree =>
    cases watch_move hu with
    | env hnames hfit => exact ⟨h.param, h.last, h.live, h.count⟩
  | poll =>
    obtain ⟨hcells, hcount⟩ := poll_cells hu
    refine ⟨?_, hcells.fileInfos.trans h.last, (hcells.heap _).trans h.live, ?_⟩
    · exact hcells.param.trans (h.param.trans hcells.fileInfos.symm)
    · exact hcells.count.trans (h.count.trans (hcount hok).symm)
  | rescan addr junk =>
    obtain ⟨rfl, hfound⟩ := hok
    have hsame := h.param
    cases watch_move hu with
    | lost hpc hfreed =>
      have hlive := h.live
      rcases hpc with ⟨-, rfl⟩ | ⟨-, rfl⟩
      · rw [← h.last, ← hsame, hfreed] at hlive
        contradiction
      · rw [← h.last, hfreed] at hlive
        contradiction
    | createRescan hpc hlive =>
      exact ⟨hsame, hsame.symm, by simp [lastRescan, Client.rescanned], hfound.symm⟩
    | deleteRescan hpc hlive =>
      exact ⟨rfl, rfl, by simp [lastRescan, Client.rescanned], hfound.symm⟩

/-- The parameter and the global hold the address of a block that is gone. -/
def Dangling (s : Client) : Prop := s.param = s.fileInfos ∧ s.heap s.param = none

theorem Dangling.step {a : Action} (h : Dangling s) (hn : (watch base).next s a = some t) :
    Dangling t := by
  cases a with
  | env tree =>
    cases watch_move hn with
    | env hnames hfit => exact h
  | poll =>
    obtain ⟨hcells, -⟩ := poll_cells hn
    refine ⟨hcells.param.trans (h.1.trans hcells.fileInfos.symm), ?_⟩
    have hgone := hcells.heap s.param
    rw [h.2] at hgone
    rw [hcells.param]
    exact Option.isSome_eq_false_iff.mp hgone |> Option.isNone_iff_eq_none.mp
  | rescan addr junk =>
    cases watch_move hn with
    | lost hpc hfreed => exact h
    | createRescan hpc hlive =>
      rw [h.2] at hlive
      contradiction
    | deleteRescan hpc hlive =>
      rw [← h.1, h.2] at hlive
      contradiction

/-- A creation that gets another block leaves both variables behind. -/
theorem createRescan_dangling {p : Path} (h : SameTable (s, last)) (hpc : s.pc = .createRescan p)
    (hne : addr ≠ s.param) (hn : (watch base).next s (.rescan addr junk) = some t) :
    Dangling t := by
  cases watch_move hn with
  | lost hpc' hfreed =>
    rcases hpc' with ⟨-, rfl⟩ | ⟨-, rfl⟩
    · exact ⟨h.param, hfreed⟩
    · exact ⟨h.param, by rw [h.param]; exact hfreed⟩
  | createRescan hpc' hlive =>
    exact ⟨h.param, by simp [Client.rescanned, Function.update_of_ne (Ne.symm hne)]⟩
  | deleteRescan hpc' hlive =>
    rw [hpc] at hpc'
    contradiction

end Steps

theorem sameTable_inductive (base : Path) :
    (watchRecorded base).Inductive (fun s a => Steady base s.1 a) SameTable where
  base s hs := by
    obtain ⟨⟨-, -, -, -, -, hparam, hcount, junk, hheap, -⟩, hlast⟩ := hs
    exact ⟨hparam, hlast.symm, by rw [hlast, hheap]; rfl, hcount⟩
  keep _ _ _ h hok hn := h.step hok hn

/-- All three read the table of the last rescan as long as rescans get the old
block and find as many files as at the start and no entry is dropped. The first
creation that gets another block ends this for good. -/
theorem one_snapshot (base : Path) (s : Client × ℕ)
    (hr : (watchRecorded base).Reaches (fun s a => Steady base s.1 a) s) :
    OneSnapshot s ∧ ∀ p addr junk t, s.1.pc = .createRescan p → addr ≠ s.1.param →
      (watchRecorded base).next s (.rescan addr junk) = some t →
      ∀ u, (watchRecorded base).Path₀ (fun _ _ => True) t u → ¬ SameTable u := by
  have h := (sameTable_inductive base).holds hr
  refine ⟨fun _ => h, fun p addr junk t hpc hne hn u hpath hsame => ?_⟩
  obtain ⟨t, ht, rfl⟩ := Option.map_eq_some_iff.mp hn
  have hgone := hpath.keep (I := fun v => Dangling v.1) (createRescan_dangling h hpc hne ht)
    fun v a w hv _ hw => by
      obtain ⟨client, hnext, rfl⟩ := Option.map_eq_some_iff.mp hw
      exact hv.step hnext
  have hlive := hsame.live
  rw [← hsame.last, ← hsame.param, hgone.2] at hlive
  contradiction

/-- A creation is reported, the older file goes before the rescan. -/
def replaced : List Action :=
  [.env (.file (utf8 "a") 1 [] (.file (utf8 "b") 1 [] .nil)), .poll, .poll,
    .env (.file (utf8 "b") 1 [] .nil), .rescan 0 temp, .poll, .poll, .poll, .poll]

theorem replaced_snapshot : ∃ s, (watchRecorded watchedDir).Reaches
    (fun s a => Steady watchedDir s.1 a) s ∧ s.1.sent.length = 1 ∧ s.1.pc = .checkCreate ∧
    SameTable s := by
  have hrun : (((watchRecorded watchedDir).guarded fun s a => Steady watchedDir s.1 a).run
      (.atStart watchedDir (.file (utf8 "a") 1 [] .nil), 0) replaced).map
      (fun s => (s.1.sent.length, s.1.pc)) = some (1, .checkCreate) := by decide
  obtain ⟨s, hs, hf⟩ := Option.map_eq_some_iff.mp hrun
  obtain ⟨hsent, hpc⟩ := Prod.mk.inj hf
  have hstart : (watchRecorded watchedDir).start
      (.atStart watchedDir (.file (utf8 "a") 1 [] .nil), 0) :=
    ⟨atStart_start _ _ (by decide) (by decide), rfl⟩
  have hr := Machine.Reaches.run (.start hstart) _ hs
  exact ⟨s, hr, hsent, hpc, (one_snapshot watchedDir s hr).1 hpc⟩

def OneSnapshotKept (base : Path) : Prop :=
  ∀ s, (watchRecorded base).Reachable s → OneSnapshot s

/-- A file is created in an empty directory: even when the rescan gets the same
block, `check_update` goes on to scan no entry. -/
theorem count_outdated : ¬ OneSnapshotKept watchedDir := by
  intro h
  have hrun : ((watchRecorded watchedDir).run (.atStart watchedDir .nil, 0)
      [.env (.file (utf8 "a") 1 [] .nil), .poll, .poll, .rescan 0 temp, .poll, .poll]).map
      (fun s => (s.1.pc, s.1.count, s.1.globCount)) = some (.checkCreate, 0, 1) := by decide
  obtain ⟨s, hs, hf⟩ := Option.map_eq_some_iff.mp hrun
  simp only [Prod.mk.injEq] at hf
  obtain ⟨hpc, hcount, hglob⟩ := hf
  have hstart : (watchRecorded watchedDir).start (.atStart watchedDir .nil, 0) :=
    ⟨atStart_start _ _ (by decide) (by decide), rfl⟩
  have hsame := h s (.run (.start hstart) _ hs) hpc
  have heq := hsame.count
  rw [hcount, hglob] at heq
  contradiction

end AdvancedCProjects.Bibak
