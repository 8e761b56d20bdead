import AdvancedCProjects.Base.Machine
import AdvancedCProjects.Bibak.Message

/-!
# The watch loop (BibakBOXClient.c:210-448)

One step of the machine is one scan, one message, one rescan or one system
call on a table entry; between any two of them the watched tree may change, but
not inside one: the size and the data of an UPDATE are of one version of the file,
though the source asks for the size before it opens the file (lines 306, 334).
Tables live in heap blocks. The global `fileInfos` and the parameter of
`checkFileModificationTimes` are two variables that hold addresses: `free`
makes a block unreadable and `malloc` chooses any address that is not in use.
-/

namespace AdvancedCProjects.Bibak
open Base

inductive Pc where
  | checkCreate
  | created (filepath : Path)
  | createRescan (filepath : Path)
  | checkDelete
  | deleted (filepath : Path)
  | deleteRescan (filepath : Path)
  | checkUpdate (i : ℕ)
  | statEntry (i : ℕ)
  | updated (index : ℕ)
  | crashed
  deriving DecidableEq

/-- The client process. `synced` is the tree the initial synchronisation left
on both sides. -/
structure Client where
  tree : Listing
  synced : Listing
  heap : ℕ → Option Block
  fileInfos : ℕ
  param : ℕ
  count : ℕ
  globCount : ℕ
  pc : Pc
  sent : List Message

/-- `env` is a change of the tree, `rescan` names the block `malloc` returns
and what it holds. -/
inductive Action where
  | env (tree : Listing)
  | poll
  | rescan (addr : ℕ) (junk : Block)

def Action.IsLoop : Action → Prop
  | .env _ => False
  | _ => True

instance (a : Action) : Decidable a.IsLoop :=
  match a with
  | .env _ => inferInstanceAs (Decidable False)
  | .poll | .rescan _ _ => inferInstanceAs (Decidable True)

def scan (base : Path) (tree : Listing) (block : Block) : Snapshot :=
  tree.saveFileModificationTimes base ⟨block, 0⟩

def temp : Block := fun _ => ⟨[], 0⟩

def firstMissing (xs ys : List FileModificationInfo) : Option FileModificationInfo :=
  xs.find? fun e => ys.all fun f => f.filepath ≠ e.filepath

def readTable (heap : ℕ → Option Block) (addr n : ℕ) : Option (List FileModificationInfo) :=
  if n = 0 then some [] else (heap addr).map fun b => b.entries n

namespace Client

/-- `check_create` up to the report. -/
def checkCreate (base : Path) (s : Client) : Client :=
  let t := scan base s.tree temp
  if t.count ≤ s.globCount then { s with pc := .checkDelete }
  else match readTable s.heap s.param s.globCount with
    | none => { s with pc := .crashed }
    | some table => match firstMissing t.entries table with
      | some e => { s with pc := .created e.filepath }
      | none => { s with pc := .checkDelete }

def checkDelete (base : Path) (s : Client) : Client :=
  let t := scan base s.tree temp
  if t.count ≥ s.globCount then { s with pc := .checkUpdate 0 }
  else match readTable s.heap s.fileInfos s.globCount with
    | none => { s with pc := .crashed }
    | some table => match firstMissing table t.entries with
      | some e => { s with pc := .deleted e.filepath }
      | none => { s with pc := .checkUpdate 0 }

/-- The loop head of `check_update` and its `fopen`. -/
def checkUpdate (base : Path) (s : Client) (i : ℕ) : Client :=
  if i ≥ s.count then { s with pc := .checkCreate }
  else match s.heap s.param with
    | none => { s with pc := .crashed }
    | some b => match s.tree.stat base (b i).filepath with
      | some _ => { s with pc := .statEntry i }
      | none =>
        let r := removeFileFromPath (fun b => (b i).filepath) b s.globCount 0 s.globCount
        { s with heap := Function.update s.heap s.param (some r.1), globCount := r.2,
                 pc := .checkUpdate (i + 1) }

/-- The `stat` of `check_update` and the comparison of the two times. -/
def statEntry (base : Path) (s : Client) (i : ℕ) : Client :=
  match s.heap s.param with
  | none => { s with pc := .crashed }
  | some b => match s.tree.stat base (b i).filepath with
    | none => { s with pc := .checkUpdate (i + 1) }
    | some f =>
      let b' := Function.update b i { b i with lastModifiedTime := f.mtime }
      if (b i).lastModifiedTime = 0 then
        { s with heap := Function.update s.heap s.param (some b'), pc := .checkUpdate (i + 1) }
      else if f.mtime > (b i).lastModifiedTime then
        { s with heap := Function.update s.heap s.param (some b'), pc := .updated i }
      else { s with pc := .checkUpdate (i + 1) }

def reportUpdate (base : Path) (s : Client) (index : ℕ) : Client :=
  match s.heap s.param with
  | none => { s with pc := .crashed }
  | some b =>
    let path := (b index).filepath
    { s with
      sent := s.sent ++ [updateDetected path base (s.tree.stat base path)], pc := .checkCreate }

def poll (base : Path) (s : Client) : Option Client :=
  match s.pc with
  | .checkCreate => some (s.checkCreate base)
  | .created p => some { s with
      sent := s.sent ++ [createdDetected p base (s.tree.stat base p)], pc := .createRescan p }
  | .checkDelete => some (s.checkDelete base)
  | .deleted p => some { s with
      sent := s.sent ++ [deletedDetected p base], pc := .deleteRescan p }
  | .checkUpdate i => some (s.checkUpdate base i)
  | .statEntry i => some (s.statEntry base i)
  | .updated i => some (s.reportUpdate base i)
  | .createRescan _ | .deleteRescan _ | .crashed => none

/-- `free(fileInfos)`, `malloc` and the scan into the new block. In
`check_create` the assigned pointer is the function's own parameter, so
neither variable of the loop learns the new address. -/
def rescan (base : Path) (s : Client) (addr : ℕ) (junk : Block) : Option Client :=
  let replace (freed : ℕ) (s' : Client) : Option Client :=
    match s.heap freed with
    | none => some { s with pc := .crashed }
    | some _ =>
      let heap := Function.update s.heap freed none
      match heap addr with
      | some _ => none
      | none =>
        let t := scan base s.tree junk
        some { s' with heap := Function.update heap addr (some t.files), globCount := t.count }
  match s.pc with
  | .createRescan _ => replace s.param { s with pc := .checkDelete }
  | .deleteRescan _ => replace s.fileInfos { s with fileInfos := addr, pc := .checkUpdate 0 }
  | _ => none

def next (base : Path) (s : Client) : Action → Option Client
  | .env tree => if tree.NamesOk ∧ tree.Fits base then some { s with tree := tree } else none
  | .poll => s.poll base
  | .rescan addr junk => s.rescan base addr junk

def start (base : Path) (s : Client) : Prop :=
  s.tree.NamesOk ∧ s.tree.Fits base ∧ s.synced = s.tree ∧ s.sent = [] ∧ s.pc = .checkCreate ∧
  s.param = s.fileInfos ∧ s.count = s.globCount ∧
  ∃ junk, s.heap s.fileInfos = some (scan base s.tree junk).files ∧
    s.globCount = (scan base s.tree junk).count

end Client

def watch (base : Path) : Machine Client Action where
  start := Client.start base
  next := Client.next base

def Client.atStart (base : Path) (tree : Listing) : Client where
  tree := tree
  synced := tree
  heap a := if a = 0 then some (scan base tree temp).files else none
  fileInfos := 0
  param := 0
  count := (scan base tree temp).count
  globCount := (scan base tree temp).count
  pc := .checkCreate
  sent := []

theorem atStart_start (base : Path) (tree : Listing) (hok : tree.NamesOk) (hfit : tree.Fits base) :
    (watch base).start (Client.atStart base tree) :=
  ⟨hok, hfit, rfl, rfl, rfl, rfl, rfl, temp, rfl, rfl⟩

/-- A full iteration of the loop with the tree unchanged and nothing sent. -/
structure Quiet (base : Path) (ok : Client → Action → Prop) (s t : Client) : Prop where
  head : s.pc = .checkCreate
  again : t.pc = .checkCreate
  loop : (watch base).Path (fun u a => a.IsLoop ∧ ok u a) s t
  silent : t.sent = s.sent

/-- The heap after a rescan. -/
def Client.rescanned (base : Path) (s : Client) (freed addr : ℕ) (junk : Block) :
    ℕ → Option Block :=
  Function.update (Function.update s.heap freed none) addr (some (scan base s.tree junk).files)

/-- What a step of the client does. -/
inductive ClientMove (base : Path) (s : Client) : Action → Client → Prop where
  | env {tree : Listing} (hok : tree.NamesOk) (hfit : tree.Fits base) :
    ClientMove base s (.env tree) { s with tree := tree }
  | checkCreate (hpc : s.pc = .checkCreate) : ClientMove base s .poll (s.checkCreate base)
  | created {p : Path} (hpc : s.pc = .created p) : ClientMove base s .poll { s with
      sent := s.sent ++ [createdDetected p base (s.tree.stat base p)], pc := .createRescan p }
  | checkDelete (hpc : s.pc = .checkDelete) : ClientMove base s .poll (s.checkDelete base)
  | deleted {p : Path} (hpc : s.pc = .deleted p) : ClientMove base s .poll { s with
      sent := s.sent ++ [deletedDetected p base], pc := .deleteRescan p }
  | checkUpdate {i : ℕ} (hpc : s.pc = .checkUpdate i) :
    ClientMove base s .poll (s.checkUpdate base i)
  | statEntry {i : ℕ} (hpc : s.pc = .statEntry i) : ClientMove base s .poll (s.statEntry base i)
  | updated {i : ℕ} (hpc : s.pc = .updated i) : ClientMove base s .poll (s.reportUpdate base i)
  | lost {freed addr : ℕ} {junk : Block}
    (hpc : (∃ p, s.pc = .createRescan p) ∧ freed = s.param ∨
      (∃ p, s.pc = .deleteRescan p) ∧ freed = s.fileInfos)
    (hfreed : s.heap freed = none) : ClientMove base s (.rescan addr junk) { s with pc := .crashed }
  | createRescan {p : Path} {addr : ℕ} {junk : Block} (hpc : s.pc = .createRescan p)
    (hlive : (s.heap s.param).isSome) : ClientMove base s (.rescan addr junk) { s with
      heap := s.rescanned base s.param addr junk
      globCount := (scan base s.tree junk).count
      pc := .checkDelete }
  | deleteRescan {p : Path} {addr : ℕ} {junk : Block} (hpc : s.pc = .deleteRescan p)
    (hlive : (s.heap s.fileInfos).isSome) : ClientMove base s (.rescan addr junk) { s with
      fileInfos := addr
      heap := s.rescanned base s.fileInfos addr junk
      globCount := (scan base s.tree junk).count
      pc := .checkUpdate 0 }

section Loop
variable {base : Path} {ok : Client → Action → Prop} {s t u : Client} {a : Action}

theorem watch_move (h : (watch base).next s a = some t) : ClientMove base s a t := by
  cases a with
  | env tree =>
    simp only [watch, Client.next] at h
    split at h
    · next hwf =>
      cases h
      exact .env hwf.1 hwf.2
    · contradiction
  | poll =>
    simp only [watch, Client.next, Client.poll] at h
    cases hpc : s.pc <;> simp only [hpc, Option.some.injEq, reduceCtorEq] at h <;> subst h
    case checkCreate => exact .checkCreate hpc
    case created => exact .created hpc
    case checkDelete => exact .checkDelete hpc
    case deleted => exact .deleted hpc
    case checkUpdate => exact .checkUpdate hpc
    case statEntry => exact .statEntry hpc
    case updated => exact .updated hpc
  | rescan addr junk =>
    simp only [watch, Client.next, Client.rescan] at h
    cases hpc : s.pc with
    | createRescan p =>
      simp only [hpc] at h
      cases hfreed : s.heap s.param with
      | none =>
        simp only [hfreed, Option.some.injEq] at h
        exact h ▸ .lost (.inl ⟨⟨p, hpc⟩, rfl⟩) hfreed
      | some b =>
        simp only [hfreed] at h
        split at h
        · contradiction
        · exact Option.some.inj h ▸ .createRescan hpc (hfreed ▸ rfl)
    | deleteRescan p =>
      simp only [hpc] at h
      cases hfreed : s.heap s.fileInfos with
      | none =>
        simp only [hfreed, Option.some.injEq] at h
        exact h ▸ .lost (.inr ⟨⟨p, hpc⟩, rfl⟩) hfreed
      | some b =>
        simp only [hfreed] at h
        split at h
        · contradiction
        · exact Option.some.inj h ▸ .deleteRescan hpc (hfreed ▸ rfl)
    | _ => simp [hpc] at h

/-! The checks change the table and the place in the loop, but for the last report. -/

structure SameTree (s t : Client) : Prop where
  tree : t.tree = s.tree
  synced : t.synced = s.synced

theorem checkCreate_same :
    (s.checkCreate base).sent = s.sent ∧ SameTree s (s.checkCreate base) := by
  refine ⟨?_, ?_, ?_⟩
  all_goals
    unfold Client.checkCreate
    dsimp only
    repeat' split
    all_goals rfl

theorem checkDelete_same :
    (s.checkDelete base).sent = s.sent ∧ SameTree s (s.checkDelete base) := by
  refine ⟨?_, ?_, ?_⟩
  all_goals
    unfold Client.checkDelete
    dsimp only
    repeat' split
    all_goals rfl

theorem checkUpdate_same (i : ℕ) :
    (s.checkUpdate base i).sent = s.sent ∧ SameTree s (s.checkUpdate base i) := by
  refine ⟨?_, ?_, ?_⟩
  all_goals
    unfold Client.checkUpdate
    dsimp only
    repeat' split
    all_goals rfl

theorem statEntry_same (i : ℕ) :
    (s.statEntry base i).sent = s.sent ∧ SameTree s (s.statEntry base i) := by
  refine ⟨?_, ?_, ?_⟩
  all_goals
    unfold Client.statEntry
    dsimp only
    repeat' split
    all_goals rfl

theorem reportUpdate_same (i : ℕ) :
    (∃ ms, (s.reportUpdate base i).sent = s.sent ++ ms) ∧ SameTree s (s.reportUpdate base i) := by
  unfold Client.reportUpdate
  split
  · exact ⟨⟨[], (List.append_nil _).symm⟩, rfl, rfl⟩
  · exact ⟨⟨_, rfl⟩, rfl, rfl⟩

theorem next_sent (h : (watch base).next s a = some t) : ∃ ms, t.sent = s.sent ++ ms := by
  have none_sent {t : Client} (heq : t.sent = s.sent) : ∃ ms, t.sent = s.sent ++ ms :=
    ⟨[], heq.trans (List.append_nil _).symm⟩
  cases watch_move h with
  | created hpc => exact ⟨_, rfl⟩
  | deleted hpc => exact ⟨_, rfl⟩
  | updated hpc => exact (reportUpdate_same _).1
  | checkCreate hpc => exact none_sent checkCreate_same.1
  | checkDelete hpc => exact none_sent checkDelete_same.1
  | checkUpdate hpc => exact none_sent (checkUpdate_same _).1
  | statEntry hpc => exact none_sent (statEntry_same _).1
  | _ => exact none_sent rfl

theorem next_tree (hl : a.IsLoop) (h : (watch base).next s a = some t) :
    t.tree = s.tree ∧ t.synced = s.synced := by
  have of_same {t : Client} (hsame : SameTree s t) : t.tree = s.tree ∧ t.synced = s.synced :=
    ⟨hsame.tree, hsame.synced⟩
  cases watch_move h with
  | env hok hfit => exact hl.elim
  | checkCreate hpc => exact of_same checkCreate_same.2
  | checkDelete hpc => exact of_same checkDelete_same.2
  | checkUpdate hpc => exact of_same (checkUpdate_same _).2
  | statEntry hpc => exact of_same (statEntry_same _).2
  | updated hpc => exact of_same (reportUpdate_same _).2
  | _ => exact ⟨rfl, rfl⟩

theorem path₀_tree (h : (watch base).Path₀ (fun u a => a.IsLoop ∧ ok u a) s t) :
    t.tree = s.tree ∧ t.synced = s.synced :=
  Machine.Path₀.keep (I := fun u => u.tree = s.tree ∧ u.synced = s.synced) h ⟨rfl, rfl⟩
    (by
      rintro u a v ⟨ht, hs⟩ ⟨hl, -⟩ hn
      obtain ⟨ht', hs'⟩ := next_tree hl hn
      exact ⟨ht'.trans ht, hs'.trans hs⟩)

theorem path₀_sent (h : (watch base).Path₀ ok s t) : ∃ ms, t.sent = s.sent ++ ms :=
  Machine.Path₀.keep (I := fun u => ∃ ms, u.sent = s.sent ++ ms) h ⟨[], by simp⟩
    (by
      rintro u a v ⟨ms, hu⟩ - hn
      obtain ⟨ms', hv⟩ := next_sent hn
      exact ⟨ms ++ ms', by rw [hv, hu, List.append_assoc]⟩)

theorem silent_step (h : (watch base).Path₀ (fun u a => a.IsLoop ∧ ok u a) u t)
    (hu : u.pc ≠ .checkCreate) (ht : t.pc = .checkCreate) (hsent : t.sent = u.sent) :
    ∃ a v, a.IsLoop ∧ ok u a ∧ (watch base).next u a = some v ∧ v.sent = u.sent ∧
      (watch base).Path₀ (fun u a => a.IsLoop ∧ ok u a) v t := by
  obtain ⟨a, v, ⟨hl, ha⟩, hn, hrest⟩ := h.first fun heq => hu (heq ▸ ht)
  obtain ⟨ms, hv⟩ := next_sent hn
  obtain ⟨ms', ht'⟩ := path₀_sent hrest
  refine ⟨a, v, hl, ha, hn, ?_, hrest⟩
  rw [hsent, hv, List.append_assoc] at ht'
  have hnil : ms ++ ms' = [] := by simpa using ht'
  rw [hv, (List.append_eq_nil_iff.mp hnil).1, List.append_nil]

theorem silent_pc (h : (watch base).Path₀ (fun u a => a.IsLoop ∧ ok u a) u t)
    (ht : t.pc = .checkCreate) (hsent : t.sent = u.sent) :
    u.pc ≠ .crashed ∧ (∀ p, u.pc ≠ .created p) ∧ ∀ p, u.pc ≠ .deleted p := by
  have stuck : ∀ pc, u.pc = pc → pc ≠ .checkCreate →
      (∀ a v, a.IsLoop → (watch base).next u a = some v → v.sent = u.sent → False) → False := by
    intro pc hpc hne hno
    obtain ⟨a, v, hl, -, hn, hv, -⟩ := silent_step h (hpc ▸ hne) ht hsent
    exact hno a v hl hn hv
  refine ⟨fun hpc => ?_, fun p hpc => ?_, fun p hpc => ?_⟩
  all_goals
    refine stuck _ hpc (by simp) fun a v hl hn hv => ?_
    cases a with
    | env tree => exact hl
    | rescan addr junk => simp [watch, Client.next, Client.rescan, hpc] at hn
    | poll => ?_
  · simp [watch, Client.next, Client.poll, hpc] at hn
  · simp only [watch, Client.next, Client.poll, hpc, Option.some.injEq] at hn
    simp [← hn] at hv
  · simp only [watch, Client.next, Client.poll, hpc, Option.some.injEq] at hn
    simp [← hn] at hv

end Loop
end AdvancedCProjects.Bibak
