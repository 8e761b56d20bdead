import Mathlib.Data.List.TakeDrop
import AdvancedCProjects.Copier.Nesting

/-!
# Where the copies go (program.c:192-254, 439-458, 499-541)

Each thread of the traversal puts the name of an entry behind the two strings
that it was given, and `snprintf` cuts the paths to what the buffers hold. What
is recorded beside a run is the path of every entry below the source, as a list
of names, so that the tasks can be compared with it.
-/

namespace AdvancedCProjects.Copier
open Base

/-! ### `main` -/

inductive MkdirResult where
  | made
  | exists
  | failed
  deriving DecidableEq

def getLastFolder (path : Bytes) : Option Bytes :=
  if path = [] then none
  else if 47 ∈ path then some (path.reverse.takeWhile (· ≠ 47)).reverse
  else some path

/-- The directory that the copies are to go to, and what is in `dest_path`. -/
def destination (sourceDir destDir : Bytes) (first second : MkdirResult) :
    Option (Bytes × Bytes) :=
  match first with
  | .made => some (destDir, destDir.take 1023)
  | .exists => do
    let lastFolder ← getLastFolder sourceDir
    if second = .failed then none
    else some (destDir ++ utf8 "/" ++ lastFolder, snprintf destDir lastFolder)
  | .failed => none

theorem destination_cut {sourceDir destDir root destPath : Bytes} {first second : MkdirResult}
    (h : destination sourceDir destDir first second = some (root, destPath)) :
    destPath = root.take 1023 := by
  cases first with
  | made =>
    cases h
    rfl
  | «exists» =>
    obtain ⟨lastFolder, -, h⟩ := Option.bind_eq_some_iff.mp h
    split at h
    · contradiction
    · cases h
      rfl
  | failed => contradiction

/-! ### Paths below the source -/

/-- The string that leads down through the names. -/
def relativePath (names : List Bytes) : Bytes := names.flatMap (utf8 "/" ++ ·)

/-- The path, and what a buffer holds of it. -/
def cutPath (root : Bytes) (names : List Bytes) : Bytes := (root ++ relativePath names).take 1023

/-- The directory that a thread reads, and the entry it is at. -/
structure Visit where
  dir : List Bytes
  entry : Bytes

def Visit.path (v : Visit) : List Bytes := v.dir ++ [v.entry]

structure Names where
  visits : ℕ → Visit
  tasks : List (List Bytes)

namespace Names

def empty : Names := ⟨fun _ => ⟨[], []⟩, []⟩

def visit (g : Names) (i : ℕ) (v : Visit) : Names :=
  { g with visits := Function.update g.visits i v }

/-- What thread `i` of `threads` does to the names. -/
def traverse (g : Names) (threads i : ℕ) : TraversalPc → Reply → Names
  | .readdir, .entry name =>
    if name = utf8 "." ∨ name = utf8 ".." then g
    else g.visit i { g.visits i with entry := name }
  | .create, .ok => g.visit threads ⟨(g.visits i).path, []⟩
  | .add _, .ok => { g with tasks := g.tasks ++ [(g.visits i).path] }
  | _, _ => g

def record (s : State) (a : Action) (g : Names) : Names :=
  match a with
  | .traverse i reply =>
    match s.traversals[i]? with
    | some th => g.traverse s.traversals.length i th.pc reply
    | none => g
  | _ => g

end Names

/-- No name that `readdir` returns has a slash. -/
def NamesOk (_ : State) : Action → Prop
  | .traverse _ (.entry name) => 47 ∉ name
  | _ => True

instance (s : State) (a : Action) : Decidable (NamesOk s a) := by
  unfold NamesOk
  split <;> infer_instance

/-- The program, started on the source and on what `main` has in `dest_path`. -/
def copierOf (size threads : ℕ) (sourceDir destPath : Bytes) : Machine State Action where
  start s := s.Start ∧ s.sourceDir = sourceDir ∧ s.destPath = destPath
  next := State.next size threads

/-- Its runs, with the names. -/
def namedCopier (size threads : ℕ) (sourceDir destPath : Bytes) :
    Machine (State × Names) Action :=
  (copierOf size threads sourceDir destPath).recorded (fun _ => .empty) Names.record

/-- Every task is for the file at its path below the source and is opened at the
same path below the destination, and no two files have the same destination. -/
structure Faithful (sourceDir destRoot : Bytes) (s : State) (g : Names) : Prop where
  paths : List.Forall₂ (fun a r => a.source = sourceDir ++ relativePath r ∧
    a.dest = destRoot ++ relativePath r) s.added g.tasks
  distinct : ∀ (i j : ℕ) (a b : Added), s.added[i]? = some a → s.added[j]? = some b →
    g.tasks[i]? ≠ g.tasks[j]? → a.dest ≠ b.dest

section Paths
variable {root p : Bytes} {r r' : List Bytes} {name : Bytes}

theorem slash_eq : utf8 "/" = [47] := by decide

theorem relativePath_eq (r : List Bytes) : relativePath r = r.flatMap (47 :: ·) := by
  simp only [relativePath, slash_eq, List.singleton_append]

theorem relativePath_snoc (r : List Bytes) (name : Bytes) :
    relativePath (r ++ [name]) = relativePath r ++ (utf8 "/" ++ name) := by
  simp [relativePath]

theorem relativePath_inj (hr : ∀ name ∈ r, 47 ∉ name) (hr' : ∀ name ∈ r', 47 ∉ name)
    (h : relativePath r = relativePath r') : r = r' := by
  have hsplit := splitOn_flatMap_cons hr []
  have hsplit' := splitOn_flatMap_cons hr' []
  simp only [List.nil_append, ← relativePath_eq] at hsplit hsplit'
  rw [h, hsplit'] at hsplit
  exact (List.append_cancel_left hsplit).symm

theorem snprintf_cutPath (h : p.take 1023 = cutPath root r) :
    snprintf p name = cutPath root (r ++ [name]) := by
  rw [snprintf, cutPath, relativePath_snoc, ← List.append_assoc, List.append_assoc p,
    ← take_append_take, h, cutPath, take_append_take]

theorem cutPath_take : (cutPath root r).take 1023 = cutPath root r := by
  rw [cutPath, List.take_take, Nat.min_self]

theorem cutPath_eq_iff :
    cutPath root r = root ++ relativePath r ↔ (root ++ relativePath r).length ≤ 1023 :=
  List.take_eq_self_iff _

end Paths

/-! ### One step -/

/-- The thread is at an entry that it has the two paths of. -/
def TraversalPc.atEntry : TraversalPc → Bool
  | .stat _ | .mkdir | .create | .openSrc _ | .openDest _ _ | .insert _ | .lockBuffer _
  | .testFull _ | .wait _ | .asleep _ | .woken _ | .add _ => true
  | _ => false

/-- The thread has the path of a directory that it makes. -/
def TraversalPc.makes : TraversalPc → Bool
  | .mkdir | .create => true
  | _ => false

def TraversalPc.isStat : TraversalPc → Bool
  | .stat _ => true
  | _ => false

/-- A thread moves on at its entry, or leaves it. -/
def TraversalPc.onward (pc pc' : TraversalPc) : Bool :=
  (!pc'.atEntry || pc.atEntry) && (!pc'.makes || pc.makes) && !pc'.isStat

/-- What a step does to the paths and their names. -/
inductive PathStep (s : State) (g : Names) : List Traversal → List Added → Names → Prop where
  | same : PathStep s g s.traversals s.added g
  | root : s.traversals = [] → PathStep s g [.start .mainSource .mainDest] s.added g
  | onward {i : ℕ} {th : Traversal} {pc : TraversalPc} : s.traversals[i]? = some th →
    th.pc.onward pc = true → PathStep s g (s.traversals.set i { th with pc := pc }) s.added g
  | entry {i : ℕ} {th : Traversal} {name : Bytes} : s.traversals[i]? = some th →
    th.pc = .readdir → 47 ∉ name → PathStep s g
      (s.traversals.set i { th with
        srcPath := snprintf (s.read th.sourceDir) name
        destPath := snprintf (s.read th.destDir) name
        pc := .stat name }) s.added (g.visit i { g.visits i with entry := name })
  | directory {i : ℕ} {th : Traversal} (name : Bytes) : s.traversals[i]? = some th →
    th.pc = .stat name → PathStep s g
      (s.traversals.set i { th with
        destSubdir := snprintf (s.read th.destDir) name
        pc := .mkdir }) s.added g
  | create {i : ℕ} {th : Traversal} : s.traversals[i]? = some th → th.pc = .create →
    PathStep s g (s.traversals.set i { th with pc := .join s.traversals.length } ++
        [.start (.srcPath i) (.destSubdir i)]) s.added
      (g.visit s.traversals.length ⟨(g.visits i).path, []⟩)
  | add {i : ℕ} {th : Traversal} (task : Task) (name : Bytes) : s.traversals[i]? = some th →
    th.pc.atEntry = true → PathStep s g (s.traversals.set i { th with pc := .signal })
      (s.added ++ [⟨task, name, th.srcPath, th.destPath⟩])
      { g with tasks := g.tasks ++ [(g.visits i).path] }

section Steps
variable {size threads i j k : ℕ} {s t u : State} {g g' : Names} {th th' : Traversal}
  {pc pc' : TraversalPc} {r : Reply} {a : Action}

theorem TraversalPc.onward_iff : pc.onward pc' = true ↔
    (pc'.atEntry = true → pc.atEntry = true) ∧ (pc'.makes = true → pc.makes = true) ∧
      pc'.isStat = false := by
  unfold onward
  cases pc'.atEntry <;> cases pc.atEntry <;> cases pc'.makes <;> cases pc.makes <;> simp

theorem PathStep.goto (hth : s.traversals[i]? = some th) (hpc : th.pc = pc)
    (ht : t.traversals = (s.goto i th pc').traversals) (ha : t.added = s.added)
    (honward : pc.onward pc' = true) : PathStep s g t.traversals t.added g := by
  rw [ht, ha]
  exact .onward hth (hpc ▸ honward)

theorem PathStep.goto_some (hth : s.traversals[i]? = some th) (hpc : th.pc = pc)
    (h : some (s.goto i th pc') = some t) (honward : pc.onward pc' = true) :
    PathStep s g t.traversals t.added g := by
  cases h
  exact .goto hth hpc rfl rfl honward

theorem traverse_paths (hth : s.traversals[i]? = some th)
    (h : s.traverse size i th pc r = some t) (hpc : th.pc = pc)
    (hok : NamesOk s (.traverse i r)) :
    PathStep s g t.traversals t.added (g.traverse s.traversals.length i pc r) := by
  unfold State.traverse at h
  split at h
  -- opendir and readdir
  · exact .goto_some hth hpc h rfl
  · exact .goto_some hth hpc h rfl
  · exact .goto_some hth hpc h rfl
  · next name =>
    simp only [Names.traverse]
    split at h
    · next hdots =>
      rw [if_pos hdots]
      cases h
      exact .same
    · next hdots =>
      rw [if_neg hdots]
      cases h
      have hentry : PathStep s g _ _ _ := .entry hth hpc hok
      exact hentry
  -- stat
  · exact .goto_some hth hpc h rfl
  · next name =>
    cases h
    have hdirectory : PathStep s g _ _ _ := .directory name hth hpc
    exact hdirectory
  · exact .goto_some hth hpc h rfl
  · exact .goto_some hth hpc h rfl
  · exact .goto_some hth hpc h rfl
  -- a directory
  · exact .goto_some hth hpc h rfl
  · exact .goto_some hth hpc h rfl
  · cases h
    exact .create hth hpc
  · exact .goto_some hth hpc h rfl
  · split at h
    · exact .goto_some hth hpc h rfl
    · contradiction
  -- a regular file
  · obtain ⟨-, rfl⟩ := State.openFd_eq h
    exact .goto hth hpc rfl rfl rfl
  · exact .goto_some hth hpc h rfl
  · obtain ⟨-, rfl⟩ := State.openFd_eq h
    exact .goto hth hpc rfl rfl rfl
  · exact .goto_some hth hpc h rfl
  · cases h
    exact .goto hth hpc rfl rfl rfl
  · cases h
    exact .goto hth hpc rfl rfl rfl
  -- add_task_to_buffer
  · obtain ⟨-, rfl⟩ := State.lockBuffer_eq h
    exact .goto hth hpc rfl rfl rfl
  · obtain ⟨-, rfl⟩ := State.lockBuffer_eq h
    exact .goto hth hpc rfl rfl rfl
  · split at h
    · exact .goto_some hth hpc h rfl
    · exact .goto_some hth hpc h rfl
  · cases h
    exact .goto hth hpc rfl rfl rfl
  · next file =>
    cases h
    exact .add _ file.name hth (by rw [hpc]; rfl)
  · obtain ⟨u, hu, rfl⟩ := State.traversalAt_wakes (State.signalNotEmpty_wakes h)
    cases hu <;> exact .goto hth hpc rfl rfl rfl
  · cases h
    exact .goto hth hpc rfl rfl rfl
  -- a FIFO
  · exact .goto_some hth hpc h rfl
  · exact .goto_some hth hpc h rfl
  · exact .goto_some hth hpc h rfl
  · exact .goto_some hth hpc h rfl
  · exact .goto_some hth hpc h rfl
  · exact .goto_some hth hpc h rfl
  -- under output_mutex
  · obtain rfl := State.lockOutput_eq h
    exact .goto hth hpc rfl rfl rfl
  · cases h
    exact .goto hth hpc rfl rfl rfl
  · next o =>
    cases h
    apply PathStep.goto hth hpc rfl rfl
    cases o <;> rfl
  · contradiction

theorem State.WakesTraversal.paths (h : s.WakesTraversal t) :
    PathStep s g t.traversals t.added g := by
  cases h with
  | nobody => exact .same
  | one hj hpc => exact .onward hj (by rw [hpc]; rfl)

theorem copier_paths (hl : Locked s) (hok : NamesOk s a)
    (h : (copier size threads).next s a = some t) :
    PathStep s g t.traversals t.added (Names.record s a g) := by
  cases copier_acts h with
  | main hmove =>
    generalize hm : s.main = mpc at hmove
    cases hmove with
    | createRoot => exact .root (hl.fresh hm)
    | _ => exact .same
  | traverse hth h =>
    simp only [Names.record, hth]
    exact traverse_paths hth h rfl hok
  | work _ h =>
    obtain ⟨wpc', u, hmove, rfl⟩ := State.work_move h
    obtain ⟨-, -, v, hv, -, hts⟩ := hmove.wakes
    have hpaths : PathStep s g v.traversals v.added g := hv.paths
    have hadded : v.added = s.added := by cases hv <;> rfl
    rw [hadded, ← hts] at hpaths
    show PathStep s g u.traversals u.added g
    rwa [hmove.added]
  | spuriousTraversal hu => exact hu.paths
  | spuriousWorker hu => cases hu <;> exact .same

end Steps

/-! ### The invariant -/

/-- The strings that a thread was given lead to its directory, as far as the
buffers go. -/
structure Given (sourceDir destRoot : Bytes) (s : State) (th : Traversal) (dir : List Bytes) :
    Prop where
  source : th.pc ≠ .exited → (s.read th.sourceDir).take 1023 = cutPath sourceDir dir
  dest : th.pc ≠ .exited → (s.read th.destDir).take 1023 = cutPath destRoot dir

/-- Its own buffers lead to the entry it is at. -/
structure Holding (sourceDir destRoot : Bytes) (th : Traversal) (v : Visit) : Prop where
  name : ∀ name, th.pc = .stat name → name = v.entry
  srcPath : th.pc.atEntry = true → th.srcPath = cutPath sourceDir v.path
  destPath : th.pc.atEntry = true → th.destPath = cutPath destRoot v.path
  destSubdir : th.pc.makes = true → th.destSubdir = cutPath destRoot v.path

structure PathsOk (sourceDir destRoot : Bytes) (s : State) (g : Names) : Prop where
  source : s.sourceDir = sourceDir
  dest : s.destPath = destRoot.take 1023
  root : (g.visits 0).dir = []
  given : ∀ (k : ℕ) (th : Traversal), s.traversals[k]? = some th →
    Given sourceDir destRoot s th (g.visits k).dir
  holding : ∀ (k : ℕ) (th : Traversal), s.traversals[k]? = some th →
    Holding sourceDir destRoot th (g.visits k)
  tasks : List.Forall₂ (fun a r => a.source = cutPath sourceDir r ∧ a.dest = cutPath destRoot r)
    s.added g.tasks
  names : ∀ k, ∀ name ∈ (g.visits k).path, 47 ∉ name
  taskNames : ∀ r ∈ g.tasks, ∀ name ∈ r, 47 ∉ name

section Invariant
variable {size threads i k : ℕ} {s t : State} {g g' : Names} {th th' : Traversal}
  {pc pc' : TraversalPc} {a : Action} {sourceDir destRoot : Bytes} {dir : List Bytes} {v : Visit}
  {ts : List Traversal} {added : List Added}

@[simp] theorem Names.visit_self : (g.visit i v).visits i = v := Function.update_self _ _ _

@[simp] theorem Names.visit_of_ne (h : k ≠ i) : (g.visit i v).visits k = g.visits k :=
  Function.update_of_ne h _ _

theorem Given.step (h : Given sourceDir destRoot s th dir) (hn : Nested s)
    (hstep : Step size threads s t) (hk : s.traversals[k]? = some th)
    (hk' : t.traversals[k]? = some th') : Given sourceDir destRoot t th' dir := by
  obtain ⟨x, hx, hsrc, hdest, hexit⟩ := (hstep.traversals hn.locked).keeps hk
  rw [hx] at hk'
  cases hk'
  have hlive (hlive' : th'.pc ≠ .exited) : th.pc ≠ .exited := fun he => hlive' (hexit he)
  constructor
  · intro hlive'
    rw [hsrc, (hn.read_step hstep hk (hlive hlive')).1]
    exact h.source (hlive hlive')
  · intro hlive'
    rw [hdest, (hn.read_step hstep hk (hlive hlive')).2]
    exact h.dest (hlive hlive')

theorem Holding.onward (h : Holding sourceDir destRoot th v) (hpc : th.pc.onward pc' = true) :
    Holding sourceDir destRoot { th with pc := pc' } v := by
  obtain ⟨hentry, hmakes, hstat⟩ := TraversalPc.onward_iff.mp hpc
  refine ⟨fun name hname => ?_, fun he => h.srcPath (hentry he), fun he => h.destPath (hentry he),
    fun hm => h.destSubdir (hmakes hm)⟩
  have hname : pc' = .stat name := hname
  rw [hname] at hstat
  contradiction

theorem Holding.idle (hpc : th.pc.atEntry = false) : Holding sourceDir destRoot th v := by
  have hstat (name : Bytes) (h : th.pc = .stat name) : False := by
    rw [h] at hpc
    contradiction
  have hmakes (h : th.pc.makes = true) : False := by
    cases hth : th.pc <;> rw [hth] at hpc h <;> contradiction
  have hentry (h : th.pc.atEntry = true) : False := by
    rw [hpc] at h
    contradiction
  exact ⟨fun name h => (hstat name h).elim, fun h => (hentry h).elim, fun h => (hentry h).elim,
    fun h => (hmakes h).elim⟩

theorem PathStep.origin (h : PathStep s g ts added g') (hk : ts[k]? = some th') :
    (∃ th, s.traversals[k]? = some th ∧ (g'.visits k).dir = (g.visits k).dir) ∨
    (k = 0 ∧ th' = .start .mainSource .mainDest ∧ g' = g) ∨
    ∃ i th, s.traversals[i]? = some th ∧ th.pc = .create ∧
      ts[i]? = some { th with pc := .join s.traversals.length } ∧
      th' = .start (.srcPath i) (.destSubdir i) ∧ (g'.visits k).dir = (g.visits i).path := by
  have old {i : ℕ} {x : Traversal} (hset : (s.traversals.set i x)[k]? = some th') :
      ∃ th, s.traversals[k]? = some th := by
    have hlt := (List.getElem?_eq_some_iff.mp hset).1
    rw [List.length_set] at hlt
    exact ⟨_, List.getElem?_eq_getElem hlt⟩
  cases h with
  | same => exact .inl ⟨th', hk, rfl⟩
  | root hnil =>
    obtain ⟨hlt, heq⟩ := List.getElem?_eq_some_iff.mp hk
    obtain rfl : k = 0 := by simpa using hlt
    exact .inr (.inl ⟨rfl, heq.symm, rfl⟩)
  | onward | directory | add =>
    obtain ⟨th, hth⟩ := old hk
    exact .inl ⟨th, hth, rfl⟩
  | @entry i =>
    obtain ⟨th, hth⟩ := old hk
    refine .inl ⟨th, hth, ?_⟩
    by_cases hki : k = i
    · simp [hki]
    · simp [hki]
  | @create i th hi hpc =>
    have hilt := (List.getElem?_eq_some_iff.mp hi).1
    have hset : (s.traversals.set i { th with pc := .join s.traversals.length })[i]? =
        some { th with pc := .join s.traversals.length } := List.getElem?_set_self hilt
    by_cases hlast : k < s.traversals.length
    · rw [List.getElem?_append_left (by rwa [List.length_set])] at hk
      obtain ⟨th, hth⟩ := old hk
      have hne : k ≠ s.traversals.length := by omega
      exact .inl ⟨th, hth, by simp [hne]⟩
    · obtain ⟨hlt, heq⟩ := List.getElem?_eq_some_iff.mp hk
      have hkeq : k = s.traversals.length := by
        simp only [List.length_append, List.length_set, List.length_singleton] at hlt
        omega
      subst hkeq
      refine .inr (.inr ⟨i, th, hi, hpc, ?_, ?_, by simp⟩)
      · rw [List.getElem?_append_left (by rwa [List.length_set]), hset]
      · rw [← heq, List.getElem_append_right (by simp)]
        simp

theorem PathsOk.given_step (h : PathsOk sourceDir destRoot s g) (hn : Nested s)
    (hstep : Step size threads s t) (hpaths : PathStep s g t.traversals added g')
    (hk : t.traversals[k]? = some th') :
    Given sourceDir destRoot t th' (g'.visits k).dir := by
  rcases hpaths.origin hk with ⟨th, hth, hdir⟩ | ⟨rfl, rfl, rfl⟩ | ⟨i, th, hi, hpc, hi', rfl, hdir⟩
  · rw [hdir]
    exact (h.given k th hth).step hn hstep hth hk
  · obtain ⟨hsource, hdest⟩ := hstep.cells
    rw [h.root]
    constructor
    · intro _
      simp [Traversal.start, State.read, hsource, h.source, cutPath, relativePath]
    · intro _
      simp [Traversal.start, State.read, hdest, h.dest, cutPath, relativePath]
  -- the thread was given the buffers of the one that created it
  · have hhold := h.holding i th hi
    rw [hdir]
    constructor
    · intro _
      have hsrc := hhold.srcPath (by rw [hpc]; rfl)
      simp [Traversal.start, State.read, hi', hsrc, cutPath_take]
    · intro _
      have hsub := hhold.destSubdir (by rw [hpc]; rfl)
      simp [Traversal.start, State.read, hi', hsub, cutPath_take]

theorem PathsOk.holding_step (h : PathsOk sourceDir destRoot s g)
    (hpaths : PathStep s g ts added g') (hk : ts[k]? = some th') :
    Holding sourceDir destRoot th' (g'.visits k) := by
  cases hpaths with
  | same => exact h.holding k th' hk
  | root hnil =>
    obtain rfl := List.mem_singleton.mp (List.mem_of_getElem? hk)
    exact .idle rfl
  | @onward i th pc hi hpc =>
    rcases getElem?_set_some hk with ⟨rfl, rfl⟩ | ⟨-, hold⟩
    · exact (h.holding k th hi).onward hpc
    · exact h.holding k th' hold
  | @entry i th name hi hpc _ =>
    rcases getElem?_set_some hk with ⟨rfl, rfl⟩ | ⟨hne, hold⟩
    · have hlive : th.pc ≠ .exited := by simp [hpc]
      have hgiven := h.given k th hi
      rw [Names.visit_self]
      refine ⟨?_, fun _ => snprintf_cutPath (hgiven.source hlive),
        fun _ => snprintf_cutPath (hgiven.dest hlive), fun hm => by contradiction⟩
      intro name' hname
      exact (TraversalPc.stat.inj hname).symm
    · rw [Names.visit_of_ne hne]
      exact h.holding k th' hold
  | @directory i th name hi hpc =>
    rcases getElem?_set_some hk with ⟨rfl, rfl⟩ | ⟨-, hold⟩
    · have hhold := h.holding k th hi
      have hlive : th.pc ≠ .exited := by simp [hpc]
      have hat : th.pc.atEntry = true := by rw [hpc]; rfl
      have hname := hhold.name name hpc
      refine ⟨fun name' hname' => by contradiction, fun _ => hhold.srcPath hat,
        fun _ => hhold.destPath hat, fun _ => ?_⟩
      rw [Visit.path, ← hname]
      exact snprintf_cutPath ((h.given k th hi).dest hlive)
    · exact h.holding k th' hold
  | @create i th hi hpc =>
    by_cases hlast : k < s.traversals.length
    · rw [List.getElem?_append_left (by rwa [List.length_set])] at hk
      rcases getElem?_set_some hk with ⟨rfl, rfl⟩ | ⟨-, hold⟩
      · exact .idle rfl
      · have hne : k ≠ s.traversals.length := by omega
        rw [Names.visit_of_ne hne]
        exact h.holding k th' hold
    · rw [List.getElem?_append_right (by rw [List.length_set]; omega)] at hk
      obtain rfl := List.mem_singleton.mp (List.mem_of_getElem? hk)
      exact .idle rfl
  | @add i th task name hi hat =>
    rcases getElem?_set_some hk with ⟨rfl, rfl⟩ | ⟨-, hold⟩
    · exact .idle rfl
    · exact h.holding k th' hold

theorem PathStep.names (h : PathStep s g ts added g')
    (hnames : ∀ k, ∀ name ∈ (g.visits k).path, 47 ∉ name) (k : ℕ) :
    ∀ name ∈ (g'.visits k).path, 47 ∉ name := by
  have visit (i : ℕ) (v : Visit) (hv : ∀ name ∈ v.path, 47 ∉ name) :
      ∀ name ∈ ((g.visit i v).visits k).path, 47 ∉ name := by
    by_cases hki : k = i
    · subst hki
      rwa [Names.visit_self]
    · rw [Names.visit_of_ne hki]
      exact hnames k
  cases h with
  | @entry i th name _ _ hname =>
    apply visit
    intro x hx
    rcases List.mem_append.mp hx with hdir | hlast
    · exact hnames i x (List.mem_append_left _ hdir)
    · rwa [List.mem_singleton.mp hlast]
  | @create i =>
    apply visit
    intro x hx
    rcases List.mem_append.mp hx with hdir | hlast
    · exact hnames i x hdir
    · rw [List.mem_singleton.mp hlast]
      exact List.not_mem_nil
  | _ => exact hnames k

theorem PathStep.root_dir (h : PathStep s g ts added g') (hroot : (g.visits 0).dir = []) :
    (g'.visits 0).dir = [] := by
  cases h with
  | @entry i =>
    by_cases hi : 0 = i
    · subst hi
      rwa [Names.visit_self]
    · rwa [Names.visit_of_ne hi]
  | @create i th hi =>
    have hne : 0 ≠ s.traversals.length := by
      have hlt := (List.getElem?_eq_some_iff.mp hi).1
      omega
    rwa [Names.visit_of_ne hne]
  | _ => exact hroot

theorem PathsOk.step (h : PathsOk sourceDir destRoot s g) (hn : Nested s)
    (hstep : Step size threads s t) (hpaths : PathStep s g t.traversals t.added g') :
    PathsOk sourceDir destRoot t g' := by
  obtain ⟨hsource, hdest⟩ := hstep.cells
  refine ⟨hsource.trans h.source, hdest.trans h.dest, hpaths.root_dir h.root,
    fun k th hk => h.given_step hn hstep hpaths hk, fun k th hk => h.holding_step hpaths hk, ?_,
    hpaths.names h.names, ?_⟩
  · generalize t.traversals = ts at hpaths
    generalize t.added = added at hpaths
    cases hpaths with
    | @add i th task name hi hat =>
      have hhold := h.holding i th hi
      exact List.rel_append h.tasks (.cons ⟨hhold.srcPath hat, hhold.destPath hat⟩ .nil)
    | _ => exact h.tasks
  · generalize t.traversals = ts at hpaths
    generalize t.added = added at hpaths
    cases hpaths with
    | @add i th task name hi hat =>
      intro r hr
      rcases List.mem_append.mp hr with hold | hlast
      · exact h.taskNames r hold
      · rw [List.mem_singleton.mp hlast]
        exact h.names i
    | _ => exact h.taskNames

end Invariant

/-! ### Whole runs -/

theorem namedCopier_inductive {size threads : ℕ} {sourceDir destRoot : Bytes} :
    (namedCopier size threads sourceDir (destRoot.take 1023)).Inductive
      (fun s a => NamesOk s.1 a)
      fun s => Nested s.1 ∧ PathsOk sourceDir destRoot s.1 s.2 where
  base s := by
    obtain ⟨s, g⟩ := s
    rintro ⟨⟨hs, hsource, hdest⟩, hg⟩
    have hg : g = .empty := hg
    have hnone (k : ℕ) (th : Traversal) (hk : s.traversals[k]? = some th) : False := by
      rw [hs.traversals] at hk
      contradiction
    subst hg
    refine ⟨(nested_inductive size threads).base s hs, hsource, hdest, rfl,
      fun k th hk => (hnone k th hk).elim, fun k th hk => (hnone k th hk).elim, ?_, ?_, ?_⟩
    · rw [hs.added]
      exact .nil
    · intro k name hname
      rw [List.mem_singleton.mp hname]
      exact List.not_mem_nil
    · intro r hr
      contradiction
  keep s a t h hok hn := by
    obtain ⟨u, hu, rfl⟩ := Option.map_eq_some_iff.mp hn
    have hstep : Step size threads s.1 u := copier_step hu
    have hpaths := copier_paths (g := s.2) h.1.locked hok hu
    exact ⟨(nested_inductive size threads).keep s.1 a u h.1 trivial hu,
      h.2.step h.1 hstep hpaths⟩

section Runs
variable {size threads : ℕ} {sourceDir destDir root destPath : Bytes} {first second : MkdirResult}
  {s : State} {g : Names} {added : List Added} {tasks : List (List Bytes)}

/-- The path below the source and the one below the destination fit the buffers. -/
def Fits (sourceDir destRoot : Bytes) (r : List Bytes) : Prop :=
  (sourceDir ++ relativePath r).length ≤ 1023 ∧ (destRoot ++ relativePath r).length ≤ 1023

theorem forall₂_cut_iff (h : List.Forall₂
      (fun a r => a.source = cutPath sourceDir r ∧ a.dest = cutPath root r) added tasks) :
    List.Forall₂ (fun a r => a.source = sourceDir ++ relativePath r ∧
      a.dest = root ++ relativePath r) added tasks ↔ ∀ r ∈ tasks, Fits sourceDir root r := by
  induction h with
  | nil => simp
  | @cons a r added tasks ha _ ih =>
    rw [List.forall₂_cons, ih, List.forall_mem_cons, ha.1, ha.2, cutPath_eq_iff, cutPath_eq_iff]
    rfl

theorem PathsOk.distinct (h : PathsOk sourceDir root s g)
    (hfits : ∀ r ∈ g.tasks, Fits sourceDir root r) {i j : ℕ} {a b : Added}
    (hi : s.added[i]? = some a) (hj : s.added[j]? = some b) (hne : g.tasks[i]? ≠ g.tasks[j]?) :
    a.dest ≠ b.dest := by
  obtain ⟨hlen, hget⟩ := List.forall₂_iff_get.mp ((forall₂_cut_iff h.tasks).mpr hfits)
  have dest {k : ℕ} {c : Added} (hk : s.added[k]? = some c) :
      ∃ r, g.tasks[k]? = some r ∧ r ∈ g.tasks ∧ c.dest = root ++ relativePath r := by
    obtain ⟨hlt, rfl⟩ := List.getElem?_eq_some_iff.mp hk
    have hlt' : k < g.tasks.length := hlen ▸ hlt
    exact ⟨g.tasks[k], List.getElem?_eq_getElem hlt', List.getElem_mem hlt', (hget k hlt hlt').2⟩
  obtain ⟨r, hr, hmem, ha⟩ := dest hi
  obtain ⟨r', hr', hmem', hb⟩ := dest hj
  intro heq
  rw [ha, hb] at heq
  have hnames := relativePath_inj (h.taskNames r hmem) (h.taskNames r' hmem')
    (List.append_cancel_left heq)
  rw [hr, hr', hnames] at hne
  exact hne rfl

/-- The tasks of a run are opened where they belong just when the paths of the
files below both roots fit the buffers of 1024 bytes. -/
theorem destinations_faithful_iff
    (hmain : destination sourceDir destDir first second = some (root, destPath))
    (hr : (namedCopier size threads sourceDir destPath).Reaches (fun s a => NamesOk s.1 a) (s, g)) :
    Faithful sourceDir root s g ↔ ∀ r ∈ g.tasks,
      (sourceDir ++ relativePath r).length ≤ 1023 ∧ (root ++ relativePath r).length ≤ 1023 := by
  rw [destination_cut hmain] at hr
  have hpaths : PathsOk sourceDir root s g := (namedCopier_inductive.holds hr).2
  constructor
  · intro h
    exact (forall₂_cut_iff hpaths.tasks).mp h.paths
  · intro hfits
    exact ⟨(forall₂_cut_iff hpaths.tasks).mpr hfits,
      fun i j a b hi hj hne => hpaths.distinct hfits hi hj hne⟩

end Runs

/-- The source has the regular files `xya` and `xyb`, and the buffer room for both. -/
def twoNames : List Action :=
  List.replicate 2 (.main .ok) ++
  [.ok, .entry (utf8 "xya"), .mode .regular, .fd 3, .fd 4, .ok, .ok, .ok, .ok, .wake none, .ok, .ok,
    .ok, .ok, .entry (utf8 "xyb"), .mode .regular, .fd 5, .fd 6, .ok, .ok, .ok, .ok].map
      (.traverse 0)

def twoNamesFrom (destPath : Bytes) : Option (State × Names) :=
  ((namedCopier 3 1 (utf8 "src") destPath).guarded fun s a => NamesOk s.1 a).run
    ({ State.init with destPath := destPath }, .empty) twoNames

theorem twoNames_reaches (destPath : Bytes) {s : State} {g : Names}
    (h : twoNamesFrom destPath = some (s, g)) :
    (namedCopier 3 1 (utf8 "src") destPath).Reaches (fun s a => NamesOk s.1 a) (s, g) := by
  have hstart : (copierOf 3 1 (utf8 "src") destPath).start
      { State.init with destPath := destPath } :=
    ⟨⟨rfl, rfl, rfl, rfl, rfl, rfl, rfl, rfl, rfl, rfl, rfl, rfl, rfl⟩, rfl, rfl⟩
  exact Machine.Reaches.run (.start ⟨hstart, rfl⟩) twoNames h

def shortRun : State × Names := (twoNamesFrom (utf8 "dst")).get (by decide)

theorem shortRun_faithful : Faithful (utf8 "src") (utf8 "dst") shortRun.1 shortRun.2 := by
  have hr := twoNames_reaches (utf8 "dst") (Option.some_get (by decide)).symm
  have hmain : destination (utf8 "src") (utf8 "dst") .made .made =
      some (utf8 "dst", utf8 "dst") := by decide
  apply (destinations_faithful_iff hmain hr).mpr
  decide

/-- A directory four levels down, whose path leaves room for three more bytes. -/
def longDest : Bytes := (List.replicate 4 (utf8 "/" ++ List.replicate 254 100)).flatten

def longRun : State × Names := (twoNamesFrom longDest).get (by decide +kernel)

theorem longRun_shares :
    destination (utf8 "src") longDest .made .made = some (longDest, longDest) ∧
    (namedCopier 3 1 (utf8 "src") longDest).Reaches (fun s a => NamesOk s.1 a) longRun ∧
    longRun.1.added.map Added.source = [utf8 "src/xya", utf8 "src/xyb"] ∧
    longRun.1.added.map Added.dest = [longDest ++ utf8 "/xy", longDest ++ utf8 "/xy"] ∧
    ¬ Faithful (utf8 "src") longDest longRun.1 longRun.2 := by
  have hdest : longRun.1.added.map Added.dest =
      [longDest ++ utf8 "/xy", longDest ++ utf8 "/xy"] := by decide +kernel
  refine ⟨by decide +kernel, twoNames_reaches longDest (Option.some_get (by decide +kernel)).symm,
    by decide +kernel, hdest, fun h => ?_⟩
  obtain ⟨a, b, hadded⟩ : ∃ a b, longRun.1.added = [a, b] :=
    List.length_eq_two.mp (by decide +kernel)
  rw [hadded] at hdest
  obtain ⟨ha, hb⟩ : a.dest = longDest ++ utf8 "/xy" ∧ b.dest = longDest ++ utf8 "/xy" := by
    simpa using hdest
  have hne : longRun.2.tasks[0]? ≠ longRun.2.tasks[1]? := by decide +kernel
  exact h.distinct 0 1 a b (by rw [hadded]; rfl) (by rw [hadded]; rfl) hne (ha.trans hb.symm)

end AdvancedCProjects.Copier
