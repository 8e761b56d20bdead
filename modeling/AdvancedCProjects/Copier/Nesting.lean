import AdvancedCProjects.Copier.Tasks

/-!
# One traversal thread at a time (program.c:171-303, 545-606)

The threads that have not exited form a chain in which each but the last one
waits in `pthread_join` for the next, so the last one has the hashtable and the
path buffers for itself, and the strings it was given by pointer stay as they
are in the buffers of a thread that waits.
-/

namespace AdvancedCProjects.Copier
open Base

/-- The thread executes statements of its own. -/
def TraversalPc.acts (pc : TraversalPc) : Bool := !pc.isJoin && pc ≠ .exited

/-- What the pointers in `args` point to. -/
def Pointed (ts : List Traversal) : Prop :=
  ∀ k th, ts[k]? = some th →
    k = 0 ∧ th.sourceDir = .mainSource ∧ th.destDir = .mainDest ∨
    ∃ j < k, th.sourceDir = .srcPath j ∧ th.destDir = .destSubdir j

/-- What a step of the program does to the threads of the traversal. -/
inductive TraversalStep (ts : List Traversal) : List Traversal → Prop where
  | root : ts = [] → TraversalStep ts [.start .mainSource .mainDest]
  | same : TraversalStep ts ts
  | set {i : ℕ} {th th' : Traversal} : ts[i]? = some th → th.pc ≠ .exited →
    th'.sourceDir = th.sourceDir → th'.destDir = th.destDir →
    (∀ k child, th.pc = .join k → ts[k]? = some child → child.pc = .exited) →
    TraversalStep ts (ts.set i th')
  | create {i : ℕ} {th th' : Traversal} : ts[i]? = some th → th.pc = .create →
    th'.sourceDir = th.sourceDir → th'.destDir = th.destDir →
    TraversalStep ts (ts.set i th' ++ [.start (.srcPath i) (.destSubdir i)])

section Steps
variable {size threads i j k : ℕ} {s t u : State} {th th' p : Traversal} {pc pc' : WorkerPc}
  {ts ts' : List Traversal}

theorem State.WakesTraversal.step (h : s.WakesTraversal u) :
    TraversalStep s.traversals u.traversals := by
  cases h with
  | nobody => exact .same
  | @one j th file hj hpc =>
    refine .set hj ?_ rfl rfl ?_
    · simp [hpc]
    · intro k child hk
      simp [hpc] at hk

theorem Step.traversals (hl : Locked s) (hstep : Step size threads s t) :
    TraversalStep s.traversals t.traversals := by
  cases hstep with
  | main hmove =>
    generalize hm : s.main = mpc at hmove
    cases hmove with
    | createRoot => exact .root (hl.fresh hm)
    | _ => exact .same
  | @traverse i th th' u hth hsrc hdest hmove =>
    have hi := (List.getElem?_eq_some_iff.mp hth).1
    have hrun := hmove.running
    have hjoins : ∀ k child, th.pc = .join k → s.traversals[k]? = some child →
        child.pc = .exited := fun k child hk hchild => hmove.joins hk hchild
    have hset : TraversalStep s.traversals (s.traversals.set i th') :=
      .set hth hrun hsrc hdest hjoins
    generalize hpc : th.pc = pc at hmove
    generalize th'.pc = pc' at hmove
    cases hmove with
    | create =>
      show TraversalStep _ ((s.traversals ++ [_]).set i th')
      rw [List.set_append_left _ _ hi]
      exact .create hth hpc hsrc hdest
    | signal hu => cases hu <;> exact hset
    | _ => exact hset
  | work _ hmove =>
    obtain ⟨-, -, v, hv, -, hts⟩ := hmove.wakes
    show TraversalStep _ _
    simp only [State.workerAt, hts]
    exact hv.step
  | spuriousTraversal hu => exact hu.step
  | spuriousWorker hu => cases hu <;> exact .same

/-- `main` does not write its own buffers while the program runs. -/
theorem Step.cells (hstep : Step size threads s t) :
    t.sourceDir = s.sourceDir ∧ t.destPath = s.destPath := by
  cases hstep with
  | main hmove =>
    generalize s.main = mpc at hmove
    cases hmove <;> exact ⟨rfl, rfl⟩
  | @traverse i th th' u _ _ _ hmove =>
    generalize th.pc = pc at hmove
    generalize th'.pc = pc' at hmove
    cases hmove with
    | signal hu => cases hu <;> exact ⟨rfl, rfl⟩
    | _ => exact ⟨rfl, rfl⟩
  | work _ hmove =>
    cases hmove with
    | signal hu | exitSignal hu => cases hu <;> exact ⟨rfl, rfl⟩
    | _ => exact ⟨rfl, rfl⟩
  | spuriousTraversal hu => cases hu <;> exact ⟨rfl, rfl⟩
  | spuriousWorker hu => cases hu <;> exact ⟨rfl, rfl⟩

theorem Pointed.set (h : Pointed ts) (hi : ts[i]? = some th) (hsrc : th'.sourceDir = th.sourceDir)
    (hdest : th'.destDir = th.destDir) : Pointed (ts.set i th') := by
  intro k th'' hk
  rcases getElem?_set_some hk with ⟨rfl, rfl⟩ | ⟨-, hold⟩
  · rw [hsrc, hdest]
    exact h k th hi
  · exact h k th'' hold

theorem Pointed.append (h : Pointed ts) (hi : i < ts.length) :
    Pointed (ts ++ [.start (.srcPath i) (.destSubdir i)]) := by
  intro k th hk
  rw [List.getElem?_append] at hk
  split at hk
  · exact h k th hk
  · next hge =>
    rw [List.getElem?_singleton] at hk
    split at hk
    · cases hk
      exact .inr ⟨i, by omega, rfl, rfl⟩
    · contradiction

theorem Pointed.step (h : Pointed ts) (hstep : TraversalStep ts ts') : Pointed ts' := by
  cases hstep with
  | root hnil =>
    intro k th hk
    obtain ⟨hlt, heq⟩ := List.getElem?_eq_some_iff.mp hk
    obtain rfl : k = 0 := by simpa using hlt
    cases heq
    exact .inl ⟨rfl, rfl, rfl⟩
  | same => exact h
  | set hi _ hsrc hdest _ => exact h.set hi hsrc hdest
  | create hi _ hsrc hdest =>
    apply (h.set hi hsrc hdest).append
    rw [List.length_set]
    exact (List.getElem?_eq_some_iff.mp hi).1

theorem TraversalStep.keeps (h : TraversalStep ts ts') (hk : ts[k]? = some th) :
    ∃ th', ts'[k]? = some th' ∧ th'.sourceDir = th.sourceDir ∧ th'.destDir = th.destDir ∧
      (th.pc = .exited → th'.pc = .exited) := by
  have hlt := (List.getElem?_eq_some_iff.mp hk).1
  have set {i : ℕ} {x x' : Traversal} (hi : ts[i]? = some x) (hrun : x.pc ≠ .exited)
      (hsrc : x'.sourceDir = x.sourceDir) (hdest : x'.destDir = x.destDir) :
      ∃ th', (ts.set i x')[k]? = some th' ∧ th'.sourceDir = th.sourceDir ∧
        th'.destDir = th.destDir ∧ (th.pc = .exited → th'.pc = .exited) := by
    by_cases hik : i = k
    · subst hik
      rw [hi] at hk
      cases hk
      exact ⟨x', List.getElem?_set_self hlt, hsrc, hdest, fun he => absurd he hrun⟩
    · exact ⟨th, by rw [List.getElem?_set_ne hik, hk], rfl, rfl, id⟩
  cases h with
  | root hnil =>
    rw [hnil] at hk
    contradiction
  | same => exact ⟨th, hk, rfl, rfl, id⟩
  | set hi hrun hsrc hdest _ => exact set hi hrun hsrc hdest
  | create hi hpc hsrc hdest =>
    obtain ⟨th', hget, hfacts⟩ := set hi (by simp [hpc]) hsrc hdest
    refine ⟨th', ?_, hfacts⟩
    rw [List.getElem?_append_left (by simpa using hlt), hget]

theorem TraversalStep.still (h : TraversalStep ts ts') (hj : ts[j]? = some p)
    (hjoin : p.pc = .join k) (hk : ts[k]? = some th) (hlive : th.pc ≠ .exited) :
    ts'[j]? = some p := by
  have hlt := (List.getElem?_eq_some_iff.mp hj).1
  cases h with
  | root hnil =>
    rw [hnil] at hj
    contradiction
  | same => exact hj
  | @set i x x' hi _ _ _ hjoins =>
    have hij : i ≠ j := by
      rintro rfl
      rw [hi] at hj
      cases hj
      exact hlive (hjoins k th hjoin hk)
    rw [List.getElem?_set_ne hij, hj]
  | @create i x x' hi hpc _ _ =>
    have hij : i ≠ j := by
      rintro rfl
      rw [hi] at hj
      cases hj
      rw [hpc] at hjoin
      contradiction
    rw [List.getElem?_append_left (by simpa using hlt), List.getElem?_set_ne hij, hj]

/-! ### The chain -/

/-- Of two threads that have not exited the older one waits for one not younger
than the other. -/
theorem Chain.waits (h : Chain ts) (hik : i < k) (hi : ts[i]? = some th)
    (hk : ts[k]? = some th') (hlive : th.pc ≠ .exited) (hlive' : th'.pc ≠ .exited) :
    ∃ m ≤ k, i < m ∧ th.pc = .join m := by
  induction k using Nat.strongRecOn generalizing i th th' with
  | ind k ih =>
    rcases h k th' hk with rfl | ⟨j, hjk, -, hparent⟩
    · exact absurd hik (Nat.not_lt_zero i)
    · obtain ⟨parent, hj, hjoin⟩ := hparent hlive'
      have hparentLive : parent.pc ≠ .exited := by
        rw [hjoin]
        simp
      rcases Nat.lt_trichotomy i j with hij | rfl | hji
      · obtain ⟨m, hmj, him, hm⟩ := ih j hjk hij hi hj hlive hparentLive
        exact ⟨m, by omega, him, hm⟩
      · rw [hi] at hj
        cases hj
        exact ⟨k, le_rfl, hik, hjoin⟩
      · -- the parent of `k` would wait for `i` or an older thread
        obtain ⟨m, hmi, -, hm⟩ := ih i hik hji hj hi hparentLive hlive
        rw [hjoin] at hm
        cases hm
        omega

theorem acts_iff {pc : TraversalPc} :
    pc.acts = true ↔ (∀ m, pc ≠ .join m) ∧ pc ≠ .exited := by
  cases pc <;> simp [TraversalPc.acts, TraversalPc.isJoin]

theorem Chain.acts_unique (h : Chain ts) (hi : ts[i]? = some th) (hk : ts[k]? = some th')
    (hact : th.pc.acts = true) (hact' : th'.pc.acts = true) : i = k := by
  obtain ⟨hjoin, hlive⟩ := acts_iff.mp hact
  obtain ⟨hjoin', hlive'⟩ := acts_iff.mp hact'
  rcases Nat.lt_trichotomy i k with hik | rfl | hki
  · obtain ⟨m, -, -, hm⟩ := h.waits hik hi hk hlive hlive'
    exact absurd hm (hjoin m)
  · rfl
  · obtain ⟨m, -, -, hm⟩ := h.waits hki hk hi hlive' hlive
    exact absurd hm (hjoin' m)

theorem Chain.parent (h : Chain ts) (hi : ts[i]? = some th) (hk : ts[k]? = some th')
    (hsrc : th'.sourceDir = .srcPath i) (hroot : k ≠ 0) (hlive : th'.pc ≠ .exited) :
    th.pc = .join k := by
  rcases h k th' hk with rfl | ⟨j, -, hs, hparent⟩
  · contradiction
  · obtain ⟨parent, hj, hjoin⟩ := hparent hlive
    rw [hsrc] at hs
    cases hs
    rw [hi] at hj
    cases hj
    exact hjoin

/-! ### Whole runs -/

def MainPc.joinedRoot : MainPc → Bool
  | .lockOutput | .setDone | .unlockOutput | .broadcast | .joinWorker _ | .report => true
  | _ => false

structure Nested (s : State) : Prop where
  locked : Locked s
  serial : Serial s
  pointed : Pointed s.traversals
  root : s.main.joinedRoot = true → RootExited s.traversals

theorem RootExited.step (h : RootExited ts) (hstep : TraversalStep ts ts') : RootExited ts' := by
  obtain ⟨root, hroot, hexit⟩ := h
  obtain ⟨root', hroot', -, -, hkeep⟩ := hstep.keeps hroot
  exact ⟨root', hroot', hkeep hexit⟩

theorem Step.joinedRoot (hstep : Step size threads s t) (hj : t.main.joinedRoot = true) :
    s.main.joinedRoot = true ∨ RootExited s.traversals := by
  cases hstep with
  | main hmove =>
    generalize s.main = mpc at hmove
    cases hmove with
    | joinRoot hroot hexit => exact .inr ⟨_, hroot, hexit⟩
    | lockOutput | setDone | unlockOutput | broadcast | joinWorker | joinedAll => exact .inl rfl
    | _ => contradiction
  | traverse _ _ _ hmove =>
    rw [← hmove.wakes.1]
    exact .inl hj
  | work _ hmove =>
    rw [← hmove.wakes.1]
    exact .inl hj
  | spuriousTraversal hu => cases hu <;> exact .inl hj
  | spuriousWorker hu => cases hu <;> exact .inl hj

theorem nested_inductive (size threads : ℕ) :
    (copier size threads).Inductive (fun _ _ => True) Nested where
  base s hs := by
    refine ⟨.start hs, .start hs, ?_, ?_⟩
    · intro k th hk
      rw [hs.traversals] at hk
      contradiction
    · rw [hs.main]
      intro hj
      contradiction
  keep s a t h _ hn := by
    have hstep := copier_step hn
    have hts := hstep.traversals h.locked
    refine ⟨h.locked.step hstep, h.serial.step h.locked hstep, h.pointed.step hts, fun hj => ?_⟩
    have hroot := (hstep.joinedRoot hj).elim h.root id
    exact hroot.step hts

/-- A step leaves the strings alone that a thread that has not exited was given. -/
theorem Nested.read_step (h : Nested s) (hstep : Step size threads s t)
    (hk : s.traversals[k]? = some th) (hlive : th.pc ≠ .exited) :
    t.read th.sourceDir = s.read th.sourceDir ∧ t.read th.destDir = s.read th.destDir := by
  rcases h.pointed k th hk with ⟨-, hsrc, hdest⟩ | ⟨j, hjk, hsrc, hdest⟩
  · rw [hsrc, hdest]
    exact hstep.cells
  · rcases h.serial.chain k th hk with rfl | ⟨j', -, hsrc', hparent⟩
    · exact absurd hjk (Nat.not_lt_zero j)
    · rw [hsrc] at hsrc'
      cases hsrc'
      obtain ⟨parent, hj, hjoin⟩ := hparent hlive
      have hstill := (hstep.traversals h.locked).still hj hjoin hk hlive
      rw [hsrc, hdest]
      simp [State.read, hj, hstill]

theorem Nested.exited_at_report (h : Nested s) (hm : s.main = .report) (hth : th ∈ s.traversals) :
    th.pc = .exited := by
  obtain ⟨k, hk⟩ := List.mem_iff_getElem?.mp hth
  obtain ⟨root, hroot, hexit⟩ := h.root (by rw [hm]; rfl)
  exact h.serial.chain.all_exited hroot hexit hk

/-- Thread `k` has the pointers of `th`, and until it exits reads through them what
`th` read in `s`. -/
def ReadsOn (s : State) (k : ℕ) (th : Traversal) (t : State) : Prop :=
  ∃ th', t.traversals[k]? = some th' ∧ th'.sourceDir = th.sourceDir ∧ th'.destDir = th.destDir ∧
    (th'.pc ≠ .exited → t.read th.sourceDir = s.read th.sourceDir ∧
      t.read th.destDir = s.read th.destDir)

theorem ReadsOn.step (h : ReadsOn s k th t) (ht : Nested t) (hstep : Step size threads t u) :
    ReadsOn s k th u := by
  obtain ⟨x, hx, hsrc, hdest, hread⟩ := h
  obtain ⟨y, hy, hsrc', hdest', hexit⟩ := (hstep.traversals ht.locked).keeps hx
  refine ⟨y, hy, hsrc'.trans hsrc, hdest'.trans hdest, fun hlive => ?_⟩
  have hliveX : x.pc ≠ .exited := fun he => hlive (hexit he)
  obtain ⟨hs, hd⟩ := ht.read_step hstep hx hliveX
  obtain ⟨hs', hd'⟩ := hread hliveX
  rw [hsrc] at hs
  rw [hdest] at hd
  exact ⟨hs.trans hs', hd.trans hd'⟩

theorem Nested.path (h : Nested s) (hp : (copier size threads).Path₀ (fun _ _ => True) s t)
    (hk : s.traversals[k]? = some th) : ReadsOn s k th t := by
  have hstart : ReadsOn s k th s := ⟨th, hk, rfl, rfl, fun _ => ⟨rfl, rfl⟩⟩
  have hend := hp.keep (I := fun u => Nested u ∧ ReadsOn s k th u) ⟨h, hstart⟩ ?_
  · exact hend.2
  · intro t a u ⟨ht, hreads⟩ hok hn
    exact ⟨(nested_inductive size threads).keep t a u ht hok hn, hreads.step ht (copier_step hn)⟩

end Steps

/-- A thread that has created another one that has not exited is in `pthread_join`
on it and takes no step; at most one thread acts; all have exited when `main`
prints the hashtable; and the strings a thread was given by pointer stay as they
are as long as it has not exited. -/
theorem traversal_serialised {size threads : ℕ} {s : State}
    (hr : (copier size threads).Reachable s) :
    (∀ (i k : ℕ) (th child : Traversal), s.traversals[i]? = some th →
      s.traversals[k]? = some child → child.sourceDir = .srcPath i → child.pc ≠ .exited →
      th.pc = .join k ∧ ∀ r, (copier size threads).next s (.traverse i r) = none) ∧
    (∀ (i k : ℕ) (th th' : Traversal), s.traversals[i]? = some th → s.traversals[k]? = some th' →
      th.pc.acts = true → th'.pc.acts = true → i = k) ∧
    (s.main = .report → ∀ th ∈ s.traversals, th.pc = .exited) ∧
    (∀ t, (copier size threads).Path₀ (fun _ _ => True) s t →
      ∀ (k : ℕ) (th : Traversal), s.traversals[k]? = some th →
        ∃ th', t.traversals[k]? = some th' ∧ th'.sourceDir = th.sourceDir ∧
          th'.destDir = th.destDir ∧
          (th'.pc ≠ .exited → t.read th.sourceDir = s.read th.sourceDir ∧
            t.read th.destDir = s.read th.destDir)) := by
  have h := (nested_inductive size threads).holds hr
  refine ⟨?_, ?_, ?_, fun t hp k th hk => h.path hp hk⟩
  · intro i k th child hi hk hsrc hlive
    have hroot : k ≠ 0 := by
      rintro rfl
      rcases h.pointed 0 child hk with ⟨-, hs, -⟩ | ⟨j, hj, -⟩
      · rw [hsrc] at hs
        contradiction
      · exact absurd hj (Nat.not_lt_zero j)
    have hjoin := h.serial.chain.parent hi hk hsrc hroot hlive
    refine ⟨hjoin, fun r => ?_⟩
    by_contra hne
    obtain ⟨t, hn⟩ := Option.ne_none_iff_exists'.mp hne
    cases copier_acts hn with
    | traverse hx hn =>
      rw [hi] at hx
      cases hx
      obtain ⟨th', u, -, -, hmove, -⟩ := State.traverse_move hi hn rfl
      exact hlive (hmove.joins hjoin hk)
  · intro i k th th' hi hk hact hact'
    exact h.serial.chain.acts_unique hi hk hact hact'
  · exact fun hm th hth => h.exited_at_report hm hth

def oneDirectory : List Action :=
  .main .ok :: [.ok, .entry (utf8 "d"), .mode .directory, .ok, .ok].map (.traverse 0)

def oneDirectoryState : State := ((copier 2 1).run .init oneDirectory).get (by decide)

theorem oneDirectory_serialised :
    oneDirectoryState.traversals.map Traversal.pc = [.join 1, .opendir] ∧
    (∀ r, (copier 2 1).next oneDirectoryState (.traverse 0 r) = none) ∧
    oneDirectoryState.read (.srcPath 0) = utf8 "src/d" ∧
    ∀ t, (copier 2 1).Path₀ (fun _ _ => True) oneDirectoryState t →
      t.traversals[1]?.any (fun th => th.pc ≠ .exited) → t.read (.srcPath 0) = utf8 "src/d" := by
  have hr : (copier 2 1).Reachable oneDirectoryState :=
    Machine.Reachable.run (.start State.init_start) oneDirectory (Option.some_get _).symm
  obtain ⟨hjoin, -, -, hstrings⟩ := traversal_serialised hr
  have hchild : oneDirectoryState.traversals[1]? =
      some (.start (.srcPath 0) (.destSubdir 0)) := by decide
  have hpath : oneDirectoryState.read (.srcPath 0) = utf8 "src/d" := by decide
  refine ⟨by decide, ?_, hpath, fun t hp hlive => ?_⟩
  · obtain ⟨th, hth⟩ : ∃ th, oneDirectoryState.traversals[0]? = some th :=
      Option.isSome_iff_exists.mp (by decide)
    exact (hjoin 0 1 th _ hth hchild rfl (by simp [Traversal.start])).2
  · obtain ⟨th', hth', -, -, hread⟩ := hstrings t hp 1 _ hchild
    rw [hth'] at hlive
    exact (hread (by simpa using hlive)).1.trans hpath

end AdvancedCProjects.Copier
