import AdvancedCProjects.Bibak.Mirror
import AdvancedCProjects.Bibak.Table

/-!
# Walks over path strings (BibakBOXServer.c:107-150, BibakBOXClient.c:79-122)

`getDirectoryContents` and `saveFileModificationTimes` go down by the string that
`snprintf` has built, whatever it names. They differ in what they do at an entry.
-/

namespace AdvancedCProjects.Bibak
open Base

/-- `stat`, with the place it has found. -/
def statAt (fs : FileSystem) (cwd : List FileName) (path : Path) :
    Option (List FileName × Node Bytes) :=
  match resolve fs cwd path with
  | .ok p => (fs.node p).map fun x => (p, x)
  | .error _ => none

/-- What a walk does at a directory before it goes into it, and at a file, whose time
it is given; `none` leaves the loop. -/
structure Visitor (σ : Type) where
  dir : Path → σ → σ
  file : Path → ℤ → σ → Option σ

/-- `entered` are the directories that `opendir` has opened so far. -/
structure Walk (σ : Type) where
  state : σ
  entered : List (List FileName)

namespace Visitor
variable {σ : Type}

/-- The loop over the names in `directory`; `sub` walks a directory. -/
def loop (v : Visitor σ) (fs : FileSystem) (cwd : List FileName) (mtime : List FileName → ℤ)
    (sub : Path → Walk σ → Option (Walk σ)) (directory : Path) :
    List Name → Walk σ → Option (Walk σ)
  | [], w => some w
  | n :: names, w =>
    if n = [dot] ∨ n = [dot, dot] then v.loop fs cwd mtime sub directory names w
    else
      let filepath := joinPath directory n
      match statAt fs cwd filepath with
      | none => v.loop fs cwd mtime sub directory names w
      | some (_, .dir) =>
        (sub filepath { w with state := v.dir filepath w.state }).bind
          (v.loop fs cwd mtime sub directory names)
      | some (p, .file _) =>
        match v.file filepath (mtime p) w.state with
        | none => some w
        | some state => v.loop fs cwd mtime sub directory names { w with state := state }

/-- `none` when the recursion has not come to its end. -/
def walk (v : Visitor σ) (fs : FileSystem) (cwd : List FileName) (mtime : List FileName → ℤ) :
    ℕ → Path → Walk σ → Option (Walk σ)
  | 0, _, _ => none
  | fuel + 1, directory, w =>
    match statAt fs cwd directory with
    | some (p, .dir) =>
      v.loop fs cwd mtime (v.walk fs cwd mtime fuel) directory
        ([dot] :: [dot, dot] :: (fs.children p).map Subtype.val)
        { w with entered := w.entered ++ [p] }
    | _ => some w

end Visitor

/-- Reaching the limit leaves the loop over this directory only. The call of `localtime`,
of whose result nothing is used, is left out. -/
def saveFileModificationTimes : Visitor Snapshot where
  dir _ t := t
  file filepath time t :=
    if t.count ≥ maxFiles then none
    else some ⟨Function.update t.files t.count ⟨filepath, time⟩, t.count + 1⟩

/-- The entries of `contents` in the order in which they are put there. -/
def directoryContents : Visitor (List FilePath) where
  dir path contents := contents ++ [.ofPath path false]
  file path _ contents := some (contents ++ [.ofPath path true])

section Walks
variable {σ : Type} {v : Visitor σ} {fs : FileSystem} {cwd p q r : List FileName}
  {mtime : List FileName → ℤ} {path directory : Path} {fuel : ℕ} {w w' : Walk σ}

theorem stat_eq : stat fs cwd path = (statAt fs cwd path).map Prod.snd := by
  unfold stat statAt
  cases resolve fs cwd path with
  | error e => rfl
  | ok p => cases hx : fs.node p <;> simp [hx]

theorem statAt_of {x : Node Bytes} (h : resolve fs cwd path = .ok p) (hx : fs.node p = some x) :
    statAt fs cwd path = some (p, x) := by
  simp only [statAt, h, hx, Option.map_some]

theorem statAt_ok {x : Node Bytes} (h : statAt fs cwd path = some (p, x)) :
    resolve fs cwd path = .ok p ∧ fs.node p = some x := by
  unfold statAt at h
  cases hres : resolve fs cwd path with
  | error e => simp [hres] at h
  | ok m =>
    simp only [hres, Option.map_eq_some_iff, Prod.mk.injEq] at h
    obtain ⟨y, hy, rfl, rfl⟩ := h
    exact ⟨rfl, hy⟩

theorem statAt_below (h : resolve fs cwd path = .ok p) (hr : fs.node (p ++ r) ≠ none) :
    statAt fs cwd (path ++ relativePath r) = (fs.node (p ++ r)).map fun x => (p ++ r, x) := by
  simp only [statAt, resolve_there h hr]

theorem opendir_eq : opendir fs cwd path =
    (statAt fs cwd path).bind fun found =>
      if found.2 = .dir then some ([dot] :: [dot, dot] :: (fs.children found.1).map Subtype.val)
      else none := by
  unfold opendir statAt
  cases resolve fs cwd path with
  | error e => rfl
  | ok p => cases hx : fs.node p <;> simp [hx]

/-! ### The loop -/

variable {sub : Path → Walk σ → Option (Walk σ)} {n : Name} {names : List Name}

theorem FileName.no_dots (n : FileName) : ¬ (n.val = [dot] ∨ n.val = [dot, dot]) :=
  not_or.mpr n.property.2

theorem loop_skip (hn : n = [dot] ∨ n = [dot, dot]) :
    v.loop fs cwd mtime sub directory (n :: names) w =
      v.loop fs cwd mtime sub directory names w := by
  rw [Visitor.loop, if_pos hn]

theorem loop_missing (hn : ¬ (n = [dot] ∨ n = [dot, dot]))
    (h : statAt fs cwd (joinPath directory n) = none) :
    v.loop fs cwd mtime sub directory (n :: names) w =
      v.loop fs cwd mtime sub directory names w := by
  simp only [Visitor.loop, if_neg hn, h]

theorem loop_dir (hn : ¬ (n = [dot] ∨ n = [dot, dot]))
    (h : statAt fs cwd (joinPath directory n) = some (q, .dir)) :
    v.loop fs cwd mtime sub directory (n :: names) w =
      (sub (joinPath directory n) { w with state := v.dir (joinPath directory n) w.state }).bind
        (v.loop fs cwd mtime sub directory names) := by
  simp only [Visitor.loop, if_neg hn, h]

theorem loop_break {content : Bytes} (hn : ¬ (n = [dot] ∨ n = [dot, dot]))
    (h : statAt fs cwd (joinPath directory n) = some (q, .file content))
    (hfile : v.file (joinPath directory n) (mtime q) w.state = none) :
    v.loop fs cwd mtime sub directory (n :: names) w = some w := by
  simp only [Visitor.loop, if_neg hn, h, hfile]

theorem loop_file {content : Bytes} {state : σ} (hn : ¬ (n = [dot] ∨ n = [dot, dot]))
    (h : statAt fs cwd (joinPath directory n) = some (q, .file content))
    (hfile : v.file (joinPath directory n) (mtime q) w.state = some state) :
    v.loop fs cwd mtime sub directory (n :: names) w =
      v.loop fs cwd mtime sub directory names { w with state := state } := by
  simp only [Visitor.loop, if_neg hn, h, hfile]

theorem walk_dir (h : statAt fs cwd directory = some (p, .dir)) :
    v.walk fs cwd mtime (fuel + 1) directory w =
      v.loop fs cwd mtime (v.walk fs cwd mtime fuel) directory
        ((fs.children p).map Subtype.val) { w with entered := w.entered ++ [p] } := by
  simp only [Visitor.walk, h]
  rw [loop_skip (.inl rfl), loop_skip (.inr rfl)]

theorem walk_other (h : ∀ p, statAt fs cwd directory ≠ some (p, .dir)) :
    v.walk fs cwd mtime (fuel + 1) directory w = some w := by
  unfold Visitor.walk
  split
  · next p hdir => exact absurd hdir (h p)
  · rfl

/-- No file leaves the loop. -/
def Visitor.Total (v : Visitor σ) : Prop := ∀ path time state, v.file path time state ≠ none

theorem loop_cases (h : v.loop fs cwd mtime sub directory (n :: names) w = some w') :
    (∃ q state u, statAt fs cwd (joinPath directory n) = some (q, .dir) ∧
      sub (joinPath directory n) { w with state := state } = some u ∧
      v.loop fs cwd mtime sub directory names u = some w') ∨
    (∃ state, v.loop fs cwd mtime sub directory names { w with state := state } = some w' ∧
      (¬ (n = [dot] ∨ n = [dot, dot]) →
        ∀ q, statAt fs cwd (joinPath directory n) ≠ some (q, .dir))) ∨
    (w' = w ∧ ¬ v.Total) := by
  by_cases hn : n = [dot] ∨ n = [dot, dot]
  · rw [loop_skip hn] at h
    exact .inr (.inl ⟨w.state, h, fun hno => absurd hn hno⟩)
  · cases hstat : statAt fs cwd (joinPath directory n) with
    | none =>
      rw [loop_missing hn hstat] at h
      exact .inr (.inl ⟨w.state, h, by simp⟩)
    | some found =>
      obtain ⟨q, x⟩ := found
      cases x with
      | dir =>
        rw [loop_dir hn hstat] at h
        obtain ⟨u, hu, hrest⟩ := Option.bind_eq_some_iff.mp h
        exact .inl ⟨q, _, u, rfl, hu, hrest⟩
      | file content =>
        cases hfile : v.file (joinPath directory n) (mtime q) w.state with
        | none =>
          rw [loop_break hn hstat hfile] at h
          exact .inr (.inr ⟨(Option.some.inj h).symm, fun hv => hv _ _ _ hfile⟩)
        | some state =>
          rw [loop_file hn hstat hfile] at h
          exact .inr (.inl ⟨state, h, by simp⟩)

theorem loop_entered (hsub : ∀ path w w', sub path w = some w' → w.entered <+: w'.entered)
    (h : v.loop fs cwd mtime sub directory names w = some w') : w.entered <+: w'.entered := by
  induction names generalizing w with
  | nil =>
    obtain rfl := Option.some.inj h
    exact List.prefix_rfl
  | cons n names ih =>
    rcases loop_cases h with ⟨q, state, u, _, hu, hrest⟩ | ⟨state, hrest, _⟩ | ⟨heq, _⟩
    · exact (hsub _ { w with state := state } u hu).trans (ih hrest)
    · exact ih (w := { w with state := state }) hrest
    · subst heq
      exact List.prefix_rfl

theorem walk_entered (h : v.walk fs cwd mtime fuel directory w = some w') :
    w.entered <+: w'.entered := by
  induction fuel generalizing directory w w' with
  | zero => contradiction
  | succ fuel ih =>
    by_cases hdir : ∃ p, statAt fs cwd directory = some (p, .dir)
    · obtain ⟨p, hp⟩ := hdir
      rw [walk_dir hp] at h
      exact (List.prefix_append _ _).trans (loop_entered (fun _ _ _ => ih) h)
    · rw [walk_other (not_exists.mp hdir)] at h
      obtain rfl := Option.some.inj h
      exact List.prefix_rfl

theorem walk_enters (hp : statAt fs cwd directory = some (p, .dir))
    (h : v.walk fs cwd mtime fuel directory w = some w') :
    w.entered ++ [p] <+: w'.entered := by
  cases fuel with
  | zero => contradiction
  | succ fuel =>
    rw [walk_dir hp] at h
    exact loop_entered (fun _ _ _ => walk_entered) h

/-! ### Walks that go through every name -/

theorem loop_calls (hv : v.Total) {m : FileName} {ms : List FileName} (hm : m ∈ ms)
    (hq : statAt fs cwd (joinPath directory m.val) = some (q, .dir))
    (h : v.loop fs cwd mtime (v.walk fs cwd mtime fuel) directory (ms.map Subtype.val) w =
      some w') :
    ∃ u u', v.walk fs cwd mtime fuel (joinPath directory m.val) u = some u' ∧
      u'.entered <+: w'.entered := by
  induction ms generalizing w with
  | nil => contradiction
  | cons n ms ih =>
    rw [List.map_cons] at h
    rcases loop_cases h with ⟨p, state, u, _, hu, hrest⟩ | ⟨state, hrest, hno⟩ | ⟨_, hbreak⟩
    · rcases List.mem_cons.mp hm with rfl | hm
      · exact ⟨_, u, hu, loop_entered (fun _ _ _ => walk_entered) hrest⟩
      · exact ih hm hrest
    · rcases List.mem_cons.mp hm with rfl | hm
      · exact absurd hq (hno (FileName.no_dots m) q)
      · exact ih hm hrest
    · exact absurd hv hbreak

/-- A directory is entered once for each of the names whose strings lead to it. -/
theorem loop_count (hv : v.Total) {ms : List FileName}
    (h : v.loop fs cwd mtime (v.walk fs cwd mtime fuel) directory (ms.map Subtype.val) w =
      some w') :
    w.entered.count q +
      ms.countP (fun m => statAt fs cwd (joinPath directory m.val) = some (q, .dir)) ≤
        w'.entered.count q := by
  induction ms generalizing w with
  | nil =>
    rw [← Option.some.inj h]
    exact le_rfl
  | cons n ms ih =>
    rw [List.map_cons] at h
    rw [List.countP_cons]
    rcases loop_cases h with ⟨p, state, u, hstat, hu, hrest⟩ | ⟨state, hrest, hno⟩ | ⟨_, hbreak⟩
    · have hcount := (walk_enters hstat hu).count_le q
      have ih := ih hrest
      simp only [List.count_append, List.count_singleton, hstat, Option.some.injEq,
        Prod.mk.injEq, and_true, decide_eq_true_eq, beq_iff_eq] at hcount ih ⊢
      omega
    · have ih := ih hrest
      have hnot := hno (FileName.no_dots n) q
      simp only [hnot, decide_false, Bool.false_eq_true, if_false] at ih ⊢
      exact ih
    · exact absurd hv hbreak

/-- Two names whose strings lead to one directory lead into it twice. -/
theorem loop_twice (hv : v.Total) {m n : FileName} {ms : List FileName} (hne : m ≠ n)
    (hm : m ∈ ms) (hn : n ∈ ms)
    (hmq : statAt fs cwd (joinPath directory m.val) = some (q, .dir))
    (hnq : statAt fs cwd (joinPath directory n.val) = some (q, .dir))
    (h : v.loop fs cwd mtime (v.walk fs cwd mtime fuel) directory (ms.map Subtype.val) w =
      some w') : ¬ w'.entered.Nodup := by
  intro hnodup
  have hcount := loop_count (q := q) hv h
  have hle := List.nodup_iff_count_le_one.mp hnodup q
  have hsub : List.Subperm [m, n] ms := by
    apply List.subperm_of_subset
    · simpa using hne
    · simp [hm, hn]
  have htwo := hsub.countP_le
    (fun m => decide (statAt fs cwd (joinPath directory m.val) = some (q, .dir)))
  simp only [List.countP_cons, List.countP_nil, hmq, hnq] at htwo
  simp at htwo
  omega

/-! ### Walks whose strings fit -/

/-- What a walk of `p` does at the names `r` below it. -/
def Visitor.visit (v : Visitor σ) (fs : FileSystem) (mtime : List FileName → ℤ)
    (p : List FileName) (path : Path) (state : σ) (r : List FileName) : σ :=
  match fs.node (p ++ r) with
  | some .dir => v.dir (path ++ relativePath r) state
  | some (.file _) => (v.file (path ++ relativePath r) (mtime (p ++ r)) state).getD state
  | none => state

/-- Once a file has left a loop, nothing changes the state any more. -/
def Visitor.Absorbs (v : Visitor σ) : Prop :=
  ∀ path time state, v.file path time state = none →
    (∀ path, v.dir path state = state) ∧ ∀ path time, v.file path time state = none

theorem visit_cons (state : σ) (n : FileName) :
    v.visit fs mtime p path state (n :: r) =
      v.visit fs mtime (p ++ [n]) (path ++ relativePath [n]) state r := by
  simp [Visitor.visit]

theorem visit_absorbed (hv : v.Absorbs) {time : ℤ} {state : σ}
    (h : v.file directory time state = none) (rs : List (List FileName)) :
    rs.foldl (v.visit fs mtime p path) state = state := by
  obtain ⟨hdir, hfile⟩ := hv _ _ _ h
  induction rs with
  | nil => rfl
  | cons r rs ih =>
    have hstep : v.visit fs mtime p path state r = state := by
      unfold Visitor.visit
      split
      · exact hdir _
      · rw [hfile]
        rfl
      · rfl
    rw [List.foldl_cons, hstep, ih]

theorem joinPath_child (hfit : FitsBelow fs p path) {n : FileName} (hn : n ∈ fs.children p) :
    joinPath path n.val = path ++ relativePath [n] := by
  have hlen := hfit [n] (List.cons_ne_nil _ _) (fs.mem_children.mp hn)
  simpa using Listing.joinPath_of_fits (d := path) (n := n.val) (by simpa using hlen)

theorem loop_below (hv : v.Absorbs) (h : resolve fs cwd path = .ok p)
    (hfit : FitsBelow fs p path) {ms : List FileName} (hms : ∀ n ∈ ms, n ∈ fs.children p)
    (hsub : ∀ n ∈ ms, fs.node (p ++ [n]) = some .dir → ∀ w : Walk σ, ∃ entered,
      v.walk fs cwd mtime fuel (path ++ relativePath [n]) w =
        some ⟨(fs.below fuel (p ++ [n])).foldl
          (v.visit fs mtime (p ++ [n]) (path ++ relativePath [n])) w.state, entered⟩)
    (w : Walk σ) : ∃ entered,
      v.loop fs cwd mtime (v.walk fs cwd mtime fuel) path (ms.map Subtype.val) w =
        some ⟨(ms.flatMap fun n => [n] :: (fs.below fuel (p ++ [n])).map (n :: ·)).foldl
          (v.visit fs mtime p path) w.state, entered⟩ := by
  induction ms generalizing w with
  | nil => exact ⟨w.entered, rfl⟩
  | cons n ms ih =>
    have hchild := hms n List.mem_cons_self
    have hnode := fs.mem_children.mp hchild
    have hn := FileName.no_dots n
    have hjoin := joinPath_child hfit hchild
    have ih := ih (fun m hm => hms m (List.mem_cons_of_mem _ hm))
      (fun m hm => hsub m (List.mem_cons_of_mem _ hm))
    rw [List.map_cons, List.flatMap_cons, List.foldl_append, List.foldl_cons, List.foldl_map]
    simp only [visit_cons]
    cases hx : fs.node (p ++ [n]) with
    | none => exact absurd hx hnode
    | some x =>
      have hstat : statAt fs cwd (joinPath path n.val) = some (p ++ [n], x) := by
        rw [hjoin, statAt_below h hnode, hx]
        rfl
      have hvisit : ∀ state, v.visit fs mtime (p ++ [n]) (path ++ relativePath [n]) state [] =
          v.visit fs mtime p path state [n] := fun state => (visit_cons state n).symm
      rw [hvisit]
      cases x with
      | dir =>
        obtain ⟨entered, hwalk⟩ := hsub n List.mem_cons_self hx
          { w with state := v.dir (joinPath path n.val) w.state }
        have hhere : v.visit fs mtime p path w.state [n] =
            v.dir (joinPath path n.val) w.state := by
          simp only [Visitor.visit, hx, hjoin]
        rw [loop_dir hn hstat, hhere]
        rw [← hjoin] at hwalk
        rw [hwalk, Option.bind_some, hjoin]
        exact ih _
      | file content =>
        have hnil : fs.below fuel (p ++ [n]) = [] := fs.below_file hx fuel
        rw [hnil, List.foldl_nil]
        cases hfile : v.file (joinPath path n.val) (mtime (p ++ [n])) w.state with
        | none =>
          have hhere : v.visit fs mtime p path w.state [n] = w.state := by
            simp only [Visitor.visit, hx, ← hjoin, hfile, Option.getD_none]
          rw [loop_break hn hstat hfile, hhere, visit_absorbed hv hfile]
          exact ⟨w.entered, rfl⟩
        | some state =>
          have hhere : v.visit fs mtime p path w.state [n] = state := by
            simp only [Visitor.visit, hx, ← hjoin, hfile, Option.getD_some]
          rw [loop_file hn hstat hfile, hhere]
          exact ih _

variable (mtime) in
/-- A walk whose strings fit visits everything below its directory in turn. -/
theorem walk_below (hv : v.Absorbs) (h : resolve fs cwd path = .ok p)
    (hdir : fs.node p = some .dir) (hfit : FitsBelow fs p path)
    (hfuel : fs.depth < p.length + fuel) (w : Walk σ) : ∃ entered,
      v.walk fs cwd mtime fuel path w =
        some ⟨(fs.below fuel p).foldl (v.visit fs mtime p path) w.state, entered⟩ := by
  induction fuel generalizing p path w with
  | zero =>
    have hlen := fs.length_le_depth (p := p) (by simp [hdir])
    omega
  | succ fuel ih =>
    rw [walk_dir (statAt_of h hdir), Disk.below]
    apply loop_below hv h hfit (fun _ hn => hn)
    intro n hn hsub w
    apply ih (resolve_below h (.inr (by simpa using hdir))) hsub (hfit.sub n)
    rw [List.length_append, List.length_singleton]
    omega

/-! ### The server's walk -/

theorem loop_contents {sub' : Path → Option (List FilePath)}
    {sub : Path → Walk (List FilePath) → Option (Walk (List FilePath))}
    (hsub : ∀ path w, (sub path w).map Walk.state = (sub' path).map (w.state ++ ·))
    (names : List Name) (w : Walk (List FilePath)) :
    (directoryContents.loop fs cwd mtime sub directory names w).map Walk.state =
      names.foldlM (listEntry fs cwd sub' directory) w.state := by
  induction names generalizing w with
  | nil => rfl
  | cons n names ih =>
    rw [List.foldlM_cons, listEntry]
    by_cases hn : n = [dot] ∨ n = [dot, dot]
    · rw [loop_skip hn, if_pos hn, ih]
      rfl
    · rw [if_neg hn]
      simp only [stat_eq]
      cases hstat : statAt fs cwd (joinPath directory n) with
      | none =>
        rw [loop_missing hn hstat, ih]
        rfl
      | some found =>
        obtain ⟨q, x⟩ := found
        cases x with
        | file content =>
          rw [loop_file hn hstat rfl, ih]
          rfl
        | dir =>
          rw [loop_dir hn hstat, Option.map_bind]
          have hwalk := hsub (joinPath directory n)
            { w with state := directoryContents.dir (joinPath directory n) w.state }
          cases hcontents : sub' (joinPath directory n) with
          | none =>
            rw [hcontents, Option.map_none, Option.map_eq_none_iff] at hwalk
            rw [hwalk]
            rfl
          | some subContents =>
            rw [hcontents, Option.map_some, Option.map_eq_some_iff] at hwalk
            obtain ⟨u, hu, hstate⟩ := hwalk
            have hstate : u.state =
                w.state ++ .ofPath (joinPath directory n) false :: subContents := by
              simpa [directoryContents] using hstate
            rw [hu, Option.bind_some, Function.comp_apply, ih, hstate]
            rfl

theorem listEntry_front (sub : Path → Option (List FilePath)) (front contents : List FilePath)
    (n : Name) : listEntry fs cwd sub directory (front ++ contents) n =
      (listEntry fs cwd sub directory contents n).map (front ++ ·) := by
  unfold listEntry
  split
  · rfl
  · dsimp only
    split
    · rfl
    · simp
    · cases sub (joinPath directory n) <;> simp

theorem getDirectoryContents_walk (fs : FileSystem) (cwd : List FileName)
    (mtime : List FileName → ℤ) (fuel : ℕ) (directory : Path) (w : Walk (List FilePath)) :
    (directoryContents.walk fs cwd mtime fuel directory w).map Walk.state =
      (getDirectoryContents fs cwd fuel directory).map (w.state ++ ·) := by
  induction fuel generalizing directory w with
  | zero => rfl
  | succ fuel ih =>
    by_cases hdir : ∃ p, statAt fs cwd directory = some (p, .dir)
    · obtain ⟨p, hp⟩ := hdir
      rw [Visitor.walk, hp, getDirectoryContents, opendir_eq, hp]
      dsimp only
      rw [loop_contents ih, Option.bind_some, if_pos rfl,
        ← foldlM_front w.state (listEntry_front _ w.state), List.append_nil]
    · have hnone : opendir fs cwd directory = none := by
        rw [opendir_eq]
        cases hfound : statAt fs cwd directory with
        | none => rfl
        | some found =>
          obtain ⟨q, x⟩ := found
          have hx : x ≠ .dir := fun heq => hdir ⟨q, heq ▸ hfound⟩
          rw [Option.bind_some, if_neg hx]
      rw [walk_other (not_exists.mp hdir), getDirectoryContents, hnone]
      simp

end Walks
end AdvancedCProjects.Bibak
