import AdvancedCProjects.Copier.Backup

/-!
# The statistics of a tree (program.c:20-32, 171-303, 413-436, 571-596)

An entry is counted some steps after it has been dealt with, under `output_mutex`;
what the threads have still to count and what is in the statistics make up what has
been dealt with. The bytes that `write` has reported are the bytes in the files.
-/

namespace AdvancedCProjects.Copier
open Base

def State.uncountedTypes (s : State) : List FileType :=
  s.traversals.flatMap fun th => th.pc.uncounted

/-- Each counter is behind by what the threads have still to count. -/
def Totalled (s : State) (w : World) : Prop :=
  ∀ type, type ≠ .other →
    Tally 4 (s.stats.count type) (s.uncountedTypes.count type) ((w.done.map Prod.snd).count type)

def World.size (w : World) (path : Bytes) : ℕ :=
  match w.dest path with
  | some (.regular data) => data.length
  | _ => 0

/-- What was written is in the files of the tasks. -/
def Weighed (s : State) (w : World) : Prop :=
  s.written = (s.added.map fun a => w.size a.dest).sum

/-- The entries of a kind. -/
def countOf (tree : Forest Bytes Leaf) (type : FileType) : ℕ :=
  ((tree.visits []).map fun e => kind e.2).count type

def Leaf.size : Leaf → ℕ
  | .regular content => content.length
  | _ => 0

def bytesOf (tree : Forest Bytes Leaf) : ℕ :=
  ((tree.visits []).map fun e => (e.2.map Leaf.size).getD 0).sum

section Totals
variable {source : Source} {sourceDir destRoot : Bytes} {tree : Forest Bytes Leaf}
  {dest : Bytes → Option DestNode} {size threads i : ℕ} {s t u : State} {g g' : Names}
  {w w' : World} {th th' : Traversal} {created : List Traversal} {pc pc' : WorkerPc} {r : Reply}

/-! ### Entries -/

/-- A thread deals with an entry, or counts one that was dealt with. -/
theorem TreeStep.counts (h : TreeStep source size s g w i th th' created g' w' t)
    {type : FileType} (hother : type ≠ .other) :
    (th'.pc.uncounted = th.pc.uncounted ∧ t.stats.count type = s.stats.count type ∧
      (w'.done.map Prod.snd).count type = (w.done.map Prod.snd).count type) ∨
    (∃ new, th.pc.uncounted = [] ∧ th'.pc.uncounted = [new] ∧
      t.stats.count type = s.stats.count type ∧
      w'.done.map Prod.snd = w.done.map Prod.snd ++ [new]) ∨
    ∃ o new, th.pc.uncounted = [new] ∧ th'.pc.uncounted = [] ∧ o.counts = [new] ∧
      t.stats = s.stats.traversal o ∧ w'.done = w.done := by
  cases h with
  | onward _ _ huncounted _ hsame => exact .inl ⟨huncounted, hsame.counts type, rfl⟩
  | @counted o _ hpc hbetween hstats =>
    refine .inr (.inr ?_)
    cases o with
    | directory => exact ⟨.directory, .directory, by rw [hpc]; rfl, rfl, rfl, hstats, rfl⟩
    | regularFile => exact ⟨.regularFile, .regular, by rw [hpc]; rfl, rfl, rfl, hstats, rfl⟩
    | fifo => exact ⟨.fifo, .fifo, by rw [hpc]; rfl, rfl, rfl, hstats, rfl⟩
    | _ => contradiction
  | other hpc _ hsame =>
    refine .inl ⟨by rw [hpc]; rfl, hsame.counts type, ?_⟩
    have hne : ¬ FileType.other = type := hother.symm
    simp [World.finish, List.count_append, hne]
  | create hpc hsame =>
    exact .inr (.inl ⟨.directory, by rw [hpc]; rfl, rfl, hsame.counts type,
      by simp [World.finish]⟩)
  | add hpc hcounts =>
    exact .inr (.inl ⟨.regular, by rw [hpc]; rfl, rfl, hcounts type, by simp [World.finish]⟩)
  | mkfifo hpc hsame =>
    exact .inr (.inl ⟨.fifo, by rw [hpc]; rfl, rfl, hsame.counts type,
      by simp [World.finish, World.put]⟩)
  | opened hpc _ hsame | entry hpc _ hsame | ended hpc _ hsame | directory hpc _ hsame
  | regular hpc _ hsame | fifo hpc _ hsame | mkdir hpc _ hsame | openSrc hpc _ hsame
  | openDest hpc _ hsame | unlink hpc hsame =>
    exact .inl ⟨by rw [hpc]; rfl, hsame.counts type, rfl⟩

theorem Statistics.count_traversal {stats : Statistics} {o : TraversalOutput} {new type : FileType}
    (ho : o.counts = [new]) : (stats.traversal o).count type =
      if new = type then wrapInt 4 (stats.count type + 1) else stats.count type := by
  cases o <;> cases ho <;> cases type <;> rfl

theorem Totalled.traverse (h : Totalled s w) (hth : s.traversals[i]? = some th)
    (hmoved : TreeMoved source size s g w i th t g' w') : Totalled t w' := by
  intro type hother
  obtain ⟨th', created, ht, hmove⟩ := hmoved
  have htally := h type hother
  have hcreated : created.flatMap (fun th => th.pc.uncounted) = [] := by
    refine List.flatMap_eq_nil_iff.mpr fun child hchild => ?_
    rw [hmove.created_pc hchild]
    rfl
  have hset := count_flatMap_set (f := fun th => th.pc.uncounted) hth th' type
  have hcount : t.uncountedTypes = (s.traversals.set i th').flatMap fun th => th.pc.uncounted := by
    rw [State.uncountedTypes, ht, List.flatMap_append, hcreated, List.append_nil]
  rw [← hcount] at hset
  have hset : t.uncountedTypes.count type + th.pc.uncounted.count type =
      s.uncountedTypes.count type + th'.pc.uncounted.count type := hset
  rcases hmove.counts hother with ⟨huncounted, hstats, hdone⟩ |
    ⟨new, hold, hnew, hstats, hdone⟩ | ⟨o, new, hold, hnew, ho, hstats, hdone⟩
  · rw [huncounted] at hset
    rw [hstats, hdone, Nat.add_right_cancel hset]
    exact htally
  · rw [hold, hnew, List.count_nil, Nat.add_zero] at hset
    rw [hstats, hdone, hset, List.count_append]
    exact htally.take _
  · rw [hold, hnew, List.count_nil, Nat.add_zero] at hset
    rw [hdone, hstats, Statistics.count_traversal ho]
    rw [← hset, List.count_singleton] at htally
    by_cases htype : new = type
    · rw [if_pos htype]
      rw [if_pos (by simp [htype])] at htally
      exact_mod_cast htally.add
    · rw [if_neg htype]
      rw [if_neg (by simp [htype])] at htally
      exact htally

theorem Totalled.frame (h : Totalled s w)
    (hcounts : ∀ type, t.stats.count type = s.stats.count type)
    (huncounted : t.uncountedTypes = s.uncountedTypes) (hdone : w'.done = w.done) :
    Totalled t w' := by
  intro type hother
  rw [hcounts, huncounted, hdone]
  exact h type hother

theorem State.WakesTraversal.uncountedTypes (h : s.WakesTraversal t) :
    t.uncountedTypes = s.uncountedTypes := by
  cases h with
  | nobody => rfl
  | one hj hpc => exact flatMap_set_congr hj (by rw [hpc]; rfl)

theorem Totalled.step {a : Action} (h : Totalled s w)
    (hbackup : Backup source sourceDir destRoot dest tree size s g w)
    (hnext : (copier size threads).next s a = some t)
    (hworld : World.next source (s, g) a w = some w') : Totalled t w' := by
  have hacts := copier_acts hnext
  clear hnext
  cases hacts with
  | @main r mpc' u hmove =>
    have hsame : w' = w := by
      cases r <;> first | contradiction | exact (Option.some.inj hworld).symm
    subst hsame
    generalize hm : s.main = mpc at hmove
    cases hmove with
    | createRoot =>
      refine h.frame (fun _ => rfl) ?_ rfl
      rw [State.uncountedTypes, State.uncountedTypes, hbackup.invariant.locked.fresh hm]
      rfl
    | _ => exact h.frame (fun _ => rfl) rfl rfl
  | @traverse i th r _ hth hmove =>
    simp only [World.next, hth, Option.bind_some] at hworld
    exact h.traverse hth (traverse_tree hth hmove hworld rfl (hbackup.fine hth))
  | @work i pc r _ hpc hwork =>
    simp only [World.next, hpc, Option.bind_some] at hworld
    obtain ⟨-, hdone⟩ := World.work_walk hworld
    obtain ⟨pc', -, hcopy⟩ := State.work_copyStep hwork
    obtain ⟨pc'', v, hmove, hv⟩ := State.work_move hwork
    obtain ⟨-, -, u, hu, -, hts⟩ := hmove.wakes
    refine h.frame (fun type => ?_) ?_ hdone
    · generalize t.stats = stats at hcopy
      generalize t.written = written at hcopy
      cases hcopy <;> cases type <;> rfl
    · have huncounted := hu.uncountedTypes
      rw [State.uncountedTypes, ← hts] at huncounted
      rw [hv]
      exact huncounted
  | spuriousTraversal hu =>
    cases hworld
    refine h.frame (fun type => ?_) hu.uncountedTypes rfl
    rw [hu.others.2.1]
  | spuriousWorker hu =>
    cases hworld
    refine h.frame (fun type => ?_) ?_ rfl
    · rw [hu.others.2.stats]
    · rw [State.uncountedTypes, hu.others.1]
      rfl

/-! ### Bytes -/

theorem World.size_eq {path content : Bytes} (h : w.dest path = some (.regular content)) :
    w.size path = content.length := by
  rw [size, h]

theorem World.size_congr {path : Bytes} (h : w'.dest path = w.dest path) :
    w'.size path = w.size path := by
  rw [size, size, h]

theorem Backup.added_nodup (h : Backup source sourceDir destRoot dest tree size s g w)
    (hstored : Stored source sourceDir destRoot tree) : s.added.Nodup := by
  obtain ⟨rests, hwalk⟩ := h.walking.walk
  have hpaths := h.paths hstored
  have htasks : g.tasks.Nodup := by
    rw [← h.arrived.regular]
    exact (hwalk.done_nodup hstored).sublist (List.filter_sublist.map _)
  obtain ⟨hlength, hget⟩ := List.forall₂_iff_get.mp hpaths
  refine List.nodup_iff_injective_get.mpr fun j k heq => ?_
  obtain ⟨hdone, -, hdest⟩ := hget j j.isLt (hlength ▸ j.isLt)
  obtain ⟨hdone', -, hdest'⟩ := hget k k.isLt (hlength ▸ k.isLt)
  have hsame : destRoot ++ relativePath (g.tasks.get ⟨j, hlength ▸ j.isLt⟩) =
      destRoot ++ relativePath (g.tasks.get ⟨k, hlength ▸ k.isLt⟩) := by
    rw [← hdest, ← hdest']
    exact congrArg Added.dest heq
  have hpath := hstored.path_inj (hwalk.done_sub hdone) (hwalk.done_sub hdone') hsame
  exact Fin.ext (Fin.mk.inj (htasks.get_inj_iff.mp hpath))

theorem Weighed.frame (h : Weighed s w) (hwritten : t.written = s.written)
    (hadded : t.added = s.added) (hdests : ∀ a ∈ s.added, w'.dest a.dest = w.dest a.dest) :
    Weighed t w' := by
  rw [Weighed, hwritten, hadded, h]
  exact congrArg List.sum (List.map_congr_left fun a ha => (World.size_congr (hdests a ha)).symm)

theorem World.size_alone {b : Added} (hnodup : s.added.Nodup) (hb : b ∈ s.added)
    (hsame : ∀ a ∈ s.added, a ≠ b → w'.dest a.dest = w.dest a.dest) :
    (s.added.map fun a => w'.size a.dest).sum + w.size b.dest =
      (s.added.map fun a => w.size a.dest).sum + w'.size b.dest :=
  sum_map_alone hnodup hb fun a ha hab => World.size_congr (hsame a ha hab)

/-- A worker adds to the file of its task what `write` reports, and to no other. -/
theorem Transfers.grows (h : Transfers source size s w) (hi : Invariant size s)
    (hpc : s.workers[i]? = some pc) (ht : t.workers = s.workers.set i pc')
    (hmove : WorkStep source s w i pc pc' w') :
    (pc.unwritten = none ∧ w'.dest = w.dest) ∨
    ∃ b ∈ s.added, ∃ n, pc = .write b.task n ∧ pc' = .lockOutput b.task (.bytes n) ∧
      w'.size b.dest = w.size b.dest + n ∧ ∀ path, path ≠ b.dest → w'.dest path = w.dest path := by
  cases hmove with
  | @write task n offset path data hfile hdata =>
    obtain ⟨b, hb, rfl, content, offset', hupto⟩ :=
      h.tasks task (mem_toCopy (List.mem_of_getElem? hpc) rfl)
    have hafter := hupto.write hi hpc ht hfile hdata
    have hpath : path = b.dest := by
      have hfd := hupto.destFd
      rw [hfile] at hfd
      exact (Opened.dest.inj (Option.some.inj hfd)).1
    refine .inr ⟨b, hb, n, rfl, rfl, ?_, fun path' hne => Function.update_of_ne (hpath ▸ hne) ..⟩
    rw [World.size_eq hafter.dest, World.size_eq hupto.dest, List.length_take, List.length_take,
      Nat.min_eq_left hafter.bound, Nat.min_eq_left hupto.bound]
  | onward hold => exact .inl ⟨hold, rfl⟩
  | _ => exact .inl ⟨rfl, rfl⟩

theorem Weighed.work (h : Weighed s w)
    (hbackup : Backup source sourceDir destRoot dest tree size s g w)
    (hstored : Stored source sourceDir destRoot tree) (hpc : s.workers[i]? = some pc)
    (hwork : s.work size i pc r = some t) (hw : w.work source i pc r = some w') :
    Weighed t w' := by
  have hlt := (List.getElem?_eq_some_iff.mp hpc).1
  have htransfers := hbackup.arrived.transfers
  obtain ⟨pc', ht, -, hmove⟩ := work_step hwork hw (htransfers.fine i pc hpc)
  obtain ⟨pc'', ht', hcopy⟩ := State.work_copyStep hwork
  have hsame : pc'' = pc' := by
    have hself := congrArg (·[i]?) (ht.symm.trans ht')
    simp only [List.getElem?_set_self hlt] at hself
    exact (Option.some.inj hself).symm
  subst hsame
  have hadded : t.added = s.added := by
    obtain ⟨pc'', u, hmove, rfl⟩ := State.work_move hwork
    exact hmove.added
  generalize t.stats = stats at hcopy
  generalize hwritten : t.written = written at hcopy
  rcases htransfers.grows hbackup.invariant hpc ht hmove with
    ⟨hold, hdest⟩ | ⟨b, hb, n, rfl, rfl, hsize, hothers⟩
  · refine h.frame ?_ hadded fun a _ => congrFun hdest a.dest
    rw [hwritten]
    cases hcopy <;> first | rfl | contradiction
  · have hsizes := World.size_alone (hbackup.added_nodup hstored) hb fun a ha hab =>
      hothers a.dest (hbackup.apart hstored a ha b hb hab).2
    have hnew : written = s.written + n := by
      cases hcopy with
      | onward _ hcount =>
        have hzero : n = 0 := hcount
        rw [hzero, Nat.add_zero]
      | write => rfl
    have hbefore : s.written = _ := h
    rw [Weighed, hwritten, hadded, hnew]
    omega

theorem Weighed.traverse (h : Weighed s w)
    (hbackup : Backup source sourceDir destRoot dest tree size s g w)
    (hstored : Stored source sourceDir destRoot tree) (hth : s.traversals[i]? = some th)
    (hn : s.traverse size i th th.pc r = some t)
    (hmoved : TreeMoved source size s g w i th t g' w') : Weighed t w' := by
  obtain ⟨th', created, ht, hmove⟩ := hmoved
  have hwritten : t.written = s.written := by
    obtain ⟨x, u, -, -, hturn, rfl⟩ := State.traverse_move hth hn rfl
    exact hturn.written
  rcases hmove.sameBuffer_or with hsame | ⟨file, hpc, -, hadded, -, hdest, -⟩
  · exact h.frame hwritten hsame.added fun a ha => hbackup.tasks_kept hstored hth hmove ha
  · obtain ⟨-, hempty⟩ := (hbackup.arrived.threads i th hth).dest file.destFd (by rw [hpc]; rfl)
    have hsize (path : Bytes) : w'.size path = w.size path := World.size_congr (congrFun hdest path)
    rw [Weighed, hwritten, hadded]
    simp only [hsize, List.map_append, List.sum_append, List.map_cons, List.map_nil, List.sum_cons,
      List.sum_nil, World.size_eq hempty, List.length_nil, Nat.add_zero]
    exact h

theorem Weighed.step {a : Action} (h : Weighed s w)
    (hbackup : Backup source sourceDir destRoot dest tree size s g w)
    (hstored : Stored source sourceDir destRoot tree)
    (hnext : (copier size threads).next s a = some t)
    (hworld : World.next source (s, g) a w = some w') : Weighed t w' := by
  have hacts := copier_acts hnext
  clear hnext
  cases hacts with
  | @main r mpc' u hmove =>
    have hsame : w' = w := by
      cases r <;> first | contradiction | exact (Option.some.inj hworld).symm
    subst hsame
    generalize s.main = mpc at hmove
    cases hmove <;> exact h
  | @traverse i th r _ hth hmove =>
    simp only [World.next, hth, Option.bind_some] at hworld
    exact h.traverse hbackup hstored hth hmove
      (traverse_tree hth hmove hworld rfl (hbackup.fine hth))
  | @work i pc r _ hpc hwork =>
    simp only [World.next, hpc, Option.bind_some] at hworld
    exact h.work hbackup hstored hpc hwork hworld
  | spuriousTraversal hu =>
    cases hworld
    cases hu <;> exact h
  | spuriousWorker hu =>
    cases hworld
    cases hu <;> exact h

end Totals

/-! ### Whole runs -/

section Runs
variable {size threads : ℕ} {sourceDir destDir root destPath : Bytes} {first second : MkdirResult}
  {source : Source} {dest : Bytes → Option DestNode} {tree : Forest Bytes Leaf} {s : State}
  {g : Names} {w : World}

theorem totals_inductive (hsize : 0 < size) (hstored : Stored source sourceDir root tree) :
    (backup size threads sourceDir (root.take 1023) source dest).Inductive (fun _ _ => True)
      fun x => (Backup source sourceDir root dest tree size x.1.1 x.1.2 x.2 ∧
        Joined threads x.1.1 ∧ Staffed threads x.1.1) ∧ Totalled x.1.1 x.2 ∧ Weighed x.1.1 x.2 ∧
        Counted x.1.1 := by
  refine (backup_inductive hsize hstored).and (fun x hx => ?_) fun x a y h _ hx _ hn => ?_
  · obtain ⟨⟨s, g⟩, w⟩ := x
    obtain ⟨⟨⟨hs, -⟩, -⟩, hw⟩ := id hx
    have hs : s.Start := hs
    have hw : w.Start dest := hw
    refine ⟨fun type hother => ?_, ?_, ((counted_inductive size threads).base s hs).1⟩
    · have hzero : s.stats.count type = 0 := by rw [hs.stats]; cases type <;> rfl
      have hnone : s.uncountedTypes = [] := by rw [State.uncountedTypes, hs.traversals]; rfl
      rw [hzero, hnone, hw.done]
      exact .zero 4
    · rw [Weighed, hs.written, hs.added]
      rfl
  · obtain ⟨hnext, -, hworld⟩ := backup_next hn
    exact ⟨hx.1.step h.1 hnext hworld, hx.2.1.step h.1 hstored hnext hworld, hx.2.2.step hnext⟩

theorem Joined.uncounted (h : Joined threads s) (hm : s.main = .report) : s.uncounted = 0 := by
  have hexited : s.workers = List.replicate s.workers.length .exited :=
    List.eq_replicate_iff.mpr ⟨rfl, h.all hm⟩
  rw [State.uncounted, hexited, List.map_replicate]
  simp [WorkerPc.uncounted]

theorem kind_eq_regular {x : Option Leaf} (h : kind x = .regular) :
    ∃ content, x = some (.regular content) := by
  match x, h with
  | some (.regular content), _ => exact ⟨content, rfl⟩

/-- The bytes in the files of the tasks are those of the source. -/
theorem Backup.bytes (h : Backup source sourceDir root dest tree size s g w)
    (hstored : Stored source sourceDir root tree) (hdone : w.done = entries (tree.visits []))
    (hfiles : ∀ r content, (r, some (Leaf.regular content)) ∈ tree.visits [] →
      w.dest (root ++ relativePath r) = some (.regular content)) :
    (s.added.map fun a => w.size a.dest).sum = bytesOf tree := by
  have hadded : (s.added.map fun a => w.size a.dest) =
      g.tasks.map fun r => w.size (root ++ relativePath r) := by
    have hsame : List.Forall₂ (· = ·) (s.added.map fun a => w.size a.dest)
        (g.tasks.map fun r => w.size (root ++ relativePath r)) := by
      rw [List.forall₂_map_left_iff, List.forall₂_map_right_iff]
      refine (h.paths hstored).imp fun a r hpath => ?_
      rw [hpath.2.2]
    rwa [List.forall₂_eq_eq_eq] at hsame
  rw [hadded, ← h.arrived.regular, hdone, entries, List.filter_map, List.map_map, List.map_map]
  refine sum_map_filter (fun e he hregular => ?_) fun e he hother => ?_
  · obtain ⟨r, x⟩ := e
    obtain ⟨content, rfl⟩ := kind_eq_regular (of_decide_eq_true hregular)
    exact World.size_eq (hfiles r content he)
  · obtain ⟨r, x⟩ := e
    cases x with
    | none => rfl
    | some leaf =>
      cases leaf with
      | regular content =>
        have hne : kind (some (.regular content)) ≠ .regular := of_decide_eq_false hother
        exact absurd rfl hne
      | fifo | other => rfl

/-- When `main` reports, the numbers that are kept are those of the tree, as far as an
`int` holds them; it prints all but that of the FIFOs. -/
theorem totals_printed (hsize : 0 < size) (hthreads : 1 ≤ threads)
    (hmain : destination sourceDir destDir first second = some (root, destPath))
    (hstored : Stored source sourceDir root tree)
    (hr : (backup size threads sourceDir destPath source dest).Reachable ((s, g), w))
    (hm : s.main = .report) :
    s.stats.regularFiles = wrapInt 4 (countOf tree .regular) ∧
    s.stats.directories = wrapInt 4 (countOf tree .directory) ∧
    s.stats.fifosCopied = wrapInt 4 (countOf tree .fifo) ∧
    s.stats.bytesCopied = wrapInt 4 (bytesOf tree) := by
  rw [destination_cut hmain] at hr
  obtain ⟨⟨h, hjoined, hstaffed⟩, htotalled, hweighed, hcounted⟩ :=
    (totals_inductive hsize hstored).holds hr
  have hdone : w.done = entries (tree.visits []) := h.walking.done hm
  have hnone : s.uncountedTypes = [] := by
    refine List.flatMap_eq_nil_iff.mpr fun th hth => ?_
    rw [h.walking.nested.exited_at_report hm hth]
    rfl
  have htypes : w.done.map Prod.snd = (tree.visits []).map fun e => kind e.2 := by
    rw [hdone, entries, List.map_map]
    rfl
  have hcount (type : FileType) (hother : type ≠ .other) :
      s.stats.count type = wrapInt 4 (countOf tree type) := by
    have htally := htotalled type hother
    rw [hnone, htypes, List.count_nil] at htally
    exact htally.settled
  refine ⟨hcount .regular (by simp), hcount .directory (by simp), hcount .fifo (by simp), ?_⟩
  have hwritten : s.written = bytesOf tree := by
    have hsum : s.written = _ := hweighed
    rw [hsum]
    exact h.bytes hstored hdone fun r content he =>
      h.regular_copied hjoined hstaffed hthreads hstored hm he
  have htally : Tally 4 s.stats.bytesCopied s.uncounted s.written := hcounted
  rw [hjoined.uncounted hm, hwritten] at htally
  exact htally.settled

end Runs

theorem smallTree_totals : ∃ x, smallEnd = some x ∧ x.1.1.main = .report ∧
    x.1.1.stats.regularFiles = 1 ∧ x.1.1.stats.directories = 1 ∧ x.1.1.stats.fifosCopied = 1 ∧
    x.1.1.stats.bytesCopied = 1 := by
  obtain ⟨s, g, w, hend, hm, hr⟩ := smallEnd_reports
  have hmain : destination (utf8 "src") (utf8 "dst") .made .made =
      some (utf8 "dst", utf8 "dst") := by decide
  obtain ⟨hregular, hdirectories, hfifos, hbytes⟩ :=
    totals_printed (by decide) (by decide) hmain smallTree_stored hr hm
  exact ⟨((s, g), w), hend, hm, hregular.trans (by decide), hdirectories.trans (by decide),
    hfifos.trans (by decide), hbytes.trans (by decide)⟩

end AdvancedCProjects.Copier
