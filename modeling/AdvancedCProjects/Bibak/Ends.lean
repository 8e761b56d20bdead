import AdvancedCProjects.Bibak.Walk

/-!
# Walks that end

The strings have 1023 bytes at most. A string that is cut off may name the directory
it was made in, and the walk goes round for ever.
-/

namespace AdvancedCProjects.Bibak
open Base

/-- The walk comes to its end and opens no directory twice. -/
def Visitor.Ends {σ : Type} (v : Visitor σ) (fs : FileSystem) (cwd : List FileName)
    (mtime : List FileName → ℤ) (path : Path) (state : σ) : Prop :=
  ∃ fuel w, v.walk fs cwd mtime fuel path ⟨state, []⟩ = some w ∧ w.entered.Nodup

/-- `getDirectoryContents` returns and has opened no directory twice. -/
def ServerEnds (fs : FileSystem) (cwd : List FileName) (mtime : List FileName → ℤ)
    (path : Path) : Prop :=
  ∃ fuel contents w, getDirectoryContents fs cwd fuel path = some contents ∧
    directoryContents.walk fs cwd mtime fuel path ⟨[], []⟩ = some w ∧ w.entered.Nodup

/-- No string that is cut off names a directory. -/
def CutsNone (fs : FileSystem) (cwd p : List FileName) (path : Path) : Prop :=
  ∀ r, r ≠ [] → fs.node (p ++ r) ≠ none → maxPathLength ≤ (path ++ relativePath r).length →
    ∀ q, statAt fs cwd ((path ++ relativePath r).take (maxPathLength - 1)) ≠ some (q, .dir)

/-- The path of the directory itself is cut off for its only entry, and names an empty one. -/
def CutsOnce (fs : FileSystem) (cwd p : List FileName) (path : Path) : Prop :=
  maxPathLength ≤ path.length ∧ ∃ n q, fs.children p = [n] ∧
    statAt fs cwd (path.take (maxPathLength - 1)) = some (q, .dir) ∧ fs.children q = []

section Cut
variable {σ : Type} {v : Visitor σ} {fs : FileSystem} {cwd p q r : List FileName}
  {mtime : List FileName → ℤ} {path : Path} {fuel : ℕ} {w w' : Walk σ} {n : FileName}

theorem joinPath_eq (path : Path) (n : FileName) :
    joinPath path n.val = (path ++ relativePath [n]).take (maxPathLength - 1) := by
  simp [joinPath]

theorem joinPath_fits (h : (path ++ relativePath [n]).length < maxPathLength) :
    joinPath path n.val = path ++ relativePath [n] := by
  rw [joinPath_eq, List.take_of_length_le (by omega)]

theorem joinPath_full (n : FileName) (h : maxPathLength - 1 ≤ path.length) :
    joinPath path n.val = path.take (maxPathLength - 1) := by
  rw [joinPath, List.take_append_of_le_length h]

/-! ### Ending -/

theorem CutsNone.sub (h : CutsNone fs cwd p path) (n : FileName) :
    CutsNone fs cwd (p ++ [n]) (path ++ relativePath [n]) := by
  intro r _ hr hlen
  rw [List.append_assoc] at hr
  have heq : path ++ relativePath [n] ++ relativePath r = path ++ relativePath (n :: r) := by simp
  rw [heq] at hlen ⊢
  exact h (n :: r) (List.cons_ne_nil _ _) hr hlen

theorem CutsNone.child (h : CutsNone fs cwd p path) (hn : n ∈ fs.children p)
    (hq : statAt fs cwd (joinPath path n.val) = some (q, .dir)) :
    joinPath path n.val = path ++ relativePath [n] := by
  apply joinPath_fits
  by_contra hlen
  rw [joinPath_eq] at hq
  exact h [n] (List.cons_ne_nil _ _) (fs.mem_children.mp hn) (by omega) q hq

/-- From `w` to `w'` only places that `rs` lists below `p` are entered, each once. -/
def Enters (p : List FileName) (rs : List (List FileName)) (w w' : Walk σ) : Prop :=
  ∃ ss, List.Sublist ss rs ∧ w'.entered = w.entered ++ ss.map (p ++ ·)

theorem Enters.none (w : Walk σ) (rs : List (List FileName)) : Enters p rs w w :=
  ⟨[], List.nil_sublist rs, by simp⟩

theorem Enters.more {rs : List (List FileName)} (h : Enters p rs w w')
    (front : List (List FileName)) : Enters p (front ++ rs) w w' := by
  obtain ⟨ss, hss, heq⟩ := h
  exact ⟨ss, hss.trans (List.sublist_append_right front rs), heq⟩

theorem Enters.below {u : Walk σ} {rs rs' : List (List FileName)}
    (h : Enters (p ++ [n]) rs w u) (h' : Enters p rs' u w') :
    Enters p (rs.map (n :: ·) ++ rs') w w' := by
  obtain ⟨ss, hss, heq⟩ := h
  obtain ⟨ss', hss', heq'⟩ := h'
  apply Exists.intro (ss.map (n :: ·) ++ ss')
  constructor
  · exact (hss.map (n :: ·)).append hss'
  · rw [heq', heq]
    simp

theorem loop_ends (h : resolve fs cwd path = .ok p) (hcut : CutsNone fs cwd p path)
    {ms : List FileName} (hms : ∀ n ∈ ms, n ∈ fs.children p)
    (hsub : ∀ n ∈ ms, fs.node (p ++ [n]) = some .dir → ∀ w : Walk σ, ∃ w',
      v.walk fs cwd mtime fuel (path ++ relativePath [n]) w = some w' ∧
      Enters (p ++ [n]) ([] :: fs.below fuel (p ++ [n])) w w')
    (w : Walk σ) : ∃ w',
      v.loop fs cwd mtime (v.walk fs cwd mtime fuel) path (ms.map Subtype.val) w = some w' ∧
      Enters p (ms.flatMap fun n => [n] :: (fs.below fuel (p ++ [n])).map (n :: ·)) w w' := by
  induction ms generalizing w with
  | nil => exact ⟨w, rfl, Enters.none w _⟩
  | cons n ms ih =>
    have hn := FileName.no_dots n
    have hchild := hms n List.mem_cons_self
    have ih := ih (fun m hm => hms m (List.mem_cons_of_mem _ hm))
      (fun m hm => hsub m (List.mem_cons_of_mem _ hm))
    rw [List.map_cons, List.flatMap_cons]
    cases hstat : statAt fs cwd (joinPath path n.val) with
    | none =>
      rw [loop_missing hn hstat]
      obtain ⟨w', hw', henters⟩ := ih w
      exact ⟨w', hw', henters.more _⟩
    | some found =>
      obtain ⟨q, x⟩ := found
      cases x with
      | file content =>
        cases hfile : v.file (joinPath path n.val) (mtime q) w.state with
        | none =>
          rw [loop_break hn hstat hfile]
          exact ⟨w, rfl, Enters.none w _⟩
        | some state =>
          rw [loop_file hn hstat hfile]
          obtain ⟨w', hw', henters⟩ := ih { w with state := state }
          exact ⟨w', hw', henters.more _⟩
      | dir =>
        have hjoin := hcut.child hchild hstat
        have hplace := statAt_below h (fs.mem_children.mp hchild)
        rw [← hjoin, hstat] at hplace
        obtain ⟨x, hx, heq⟩ := Option.map_eq_some_iff.mp hplace.symm
        obtain ⟨rfl, rfl⟩ := Prod.mk.inj heq
        obtain ⟨u, hu, hsubenters⟩ := hsub n List.mem_cons_self hx
          { w with state := v.dir (joinPath path n.val) w.state }
        obtain ⟨w', hw', henters⟩ := ih u
        rw [← hjoin] at hu
        rw [loop_dir hn hstat, hu, Option.bind_some]
        exact ⟨w', hw', hsubenters.below henters⟩

variable (v mtime fuel) in
theorem walk_ends (h : resolve fs cwd path = .ok p) (hdir : fs.node p = some .dir)
    (hcut : CutsNone fs cwd p path) (hfuel : fs.depth < p.length + fuel) (w : Walk σ) :
    ∃ w', v.walk fs cwd mtime fuel path w = some w' ∧
      Enters p ([] :: fs.below fuel p) w w' := by
  induction fuel generalizing p path w with
  | zero =>
    have hlen := fs.length_le_depth (p := p) (by simp [hdir])
    omega
  | succ fuel ih =>
    have hsub : ∀ n ∈ fs.children p, fs.node (p ++ [n]) = some .dir → ∀ w : Walk σ, ∃ w',
        v.walk fs cwd mtime fuel (path ++ relativePath [n]) w = some w' ∧
        Enters (p ++ [n]) ([] :: fs.below fuel (p ++ [n])) w w' := by
      intro n _ hx w
      apply ih (resolve_below h (.inr (by simpa using hdir))) hx (hcut.sub n)
      rw [List.length_append, List.length_singleton]
      omega
    obtain ⟨w', hw', ss, hss, hentered⟩ := loop_ends h hcut (fun _ hn => hn) hsub
      { w with entered := w.entered ++ [p] }
    rw [walk_dir (statAt_of h hdir)]
    apply Exists.intro w'
    apply And.intro hw'
    apply Exists.intro ([] :: ss)
    apply And.intro (hss.cons_cons [])
    rw [hentered]
    simp

/-- Where no string is cut off so that it names a directory, the walk ends. -/
theorem CutsNone.ends (hcut : CutsNone fs cwd p path) (h : resolve fs cwd path = .ok p)
    (hdir : fs.node p = some .dir) (state : σ) : v.Ends fs cwd mtime path state := by
  obtain ⟨w, hw, ss, hss, hentered⟩ := walk_ends v mtime (fs.depth + 1) h hdir hcut
    (by omega) ⟨state, []⟩
  have hlists := fs.below_lists (p := p) (fs.depth + 1) (by omega)
  have hnodup : ([] :: fs.below (fs.depth + 1) p).Nodup := by
    apply List.nodup_cons.mpr
    apply And.intro _ hlists.nodup
    intro hmem
    exact ((hlists.mem []).mp hmem).1 rfl
  apply Exists.intro (fs.depth + 1)
  apply Exists.intro w
  apply And.intro hw
  rw [hentered, List.nil_append]
  exact (hss.nodup hnodup).map (List.append_right_injective p)

/-- A walk of a directory with one entry, whose string leads to an empty directory. -/
theorem CutsOnce.ends (hcut : CutsOnce fs cwd p path) (h : resolve fs cwd path = .ok p)
    (hdir : fs.node p = some .dir) (state : σ) : v.Ends fs cwd mtime path state := by
  obtain ⟨hlen, n, q, hchild, hq, hempty⟩ := hcut
  have hjoin := joinPath_full n ((Nat.sub_le _ 1).trans hlen)
  rw [← hjoin] at hq
  apply Exists.intro 2
  apply Exists.intro ⟨v.dir (joinPath path n.val) state, [p, q]⟩
  constructor
  · rw [walk_dir (statAt_of h hdir), hchild, List.map_singleton,
      loop_dir (FileName.no_dots n) hq, walk_dir hq, hempty]
    rfl
  · have hne : p ≠ q := by
      intro heq
      rw [heq, hempty] at hchild
      contradiction
    simpa using hne

/-! ### Going round -/

/-- A string without room for a name is its own continuation. -/
theorem walk_round (hv : v.Total) (hlen : path.length = maxPathLength - 1)
    (hq : statAt fs cwd path = some (q, .dir)) (hn : n ∈ fs.children q) (fuel : ℕ) (w : Walk σ) :
    v.walk fs cwd mtime fuel path w = none := by
  have hjoin : joinPath path n.val = path := by
    rw [joinPath_full n hlen.ge, List.take_of_length_le hlen.le]
  induction fuel generalizing w with
  | zero => rfl
  | succ fuel ih =>
    cases hw : v.walk fs cwd mtime (fuel + 1) path w with
    | none => rfl
    | some w' =>
      rw [walk_dir hq] at hw
      rw [← hjoin] at hq
      obtain ⟨u, u', hu, _⟩ := loop_calls hv hn hq hw
      rw [hjoin, ih] at hu
      contradiction

theorem walk_descends (hv : v.Total) (h : resolve fs cwd path = .ok p)
    (hdir : fs.node (p ++ r) = some .dir)
    (hfit : r ≠ [] → (path ++ relativePath r).length < maxPathLength)
    (hw : v.walk fs cwd mtime fuel path w = some w') :
    ∃ fuel u u', v.walk fs cwd mtime fuel (path ++ relativePath r) u = some u' ∧
      u'.entered <+: w'.entered := by
  induction r generalizing p path fuel w w' with
  | nil => exact ⟨fuel, w, w', by simpa using hw, List.prefix_rfl⟩
  | cons n r ih =>
    have hnode : fs.node (p ++ [n] ++ r) = some .dir := by simpa using hdir
    have hfit : (path ++ relativePath [n] ++ relativePath r).length < maxPathLength := by
      simpa using hfit (List.cons_ne_nil _ _)
    have hn : fs.node (p ++ [n]) = some .dir := by
      by_cases hnil : r = []
      · simpa [hnil] using hnode
      · exact fs.above (by rw [hnode]; simp) hnil
    have hp : fs.node p = some .dir := fs.above (by simp [hn]) (List.cons_ne_nil n [])
    have hresolve : resolve fs cwd (path ++ relativePath [n]) = .ok (p ++ [n]) :=
      resolve_below h (.inr (by simpa using hp))
    have hjoin : joinPath path n.val = path ++ relativePath [n] := by
      apply joinPath_fits
      rw [List.length_append] at hfit
      omega
    cases fuel with
    | zero => contradiction
    | succ fuel =>
      have hchild : n ∈ fs.children p := fs.mem_children.mpr (by simp [hn])
      have hstat := statAt_of hresolve hn
      rw [walk_dir (statAt_of h hp)] at hw
      rw [← hjoin] at hstat
      obtain ⟨u, u', hu, hpre⟩ := loop_calls hv hchild hstat hw
      rw [hjoin] at hu
      obtain ⟨fuel', t, t', ht, hpre'⟩ := ih hresolve hnode (fun _ => hfit) hu
      apply Exists.intro fuel'
      apply Exists.intro t
      apply Exists.intro t'
      apply And.intro _ (hpre'.trans hpre)
      simpa using ht

theorem first_cut (hr : r ≠ []) (hlen : maxPathLength ≤ (path ++ relativePath r).length) :
    ∃ d n t, r = d ++ n :: t ∧ maxPathLength ≤ (path ++ relativePath (d ++ [n])).length ∧
      (d ≠ [] → (path ++ relativePath d).length < maxPathLength) := by
  induction r generalizing path with
  | nil => contradiction
  | cons n r ih =>
    by_cases hcut : maxPathLength ≤ (path ++ relativePath [n]).length
    · exact ⟨[], n, r, rfl, hcut, fun hnil => absurd rfl hnil⟩
    · have hr : r ≠ [] := by
        intro hnil
        rw [hnil] at hlen
        exact hcut hlen
      have hlen : maxPathLength ≤ ((path ++ relativePath [n]) ++ relativePath r).length := by
        simpa using hlen
      obtain ⟨d, m, t, rfl, hm, hd⟩ := ih hr hlen
      apply Exists.intro (n :: d)
      apply Exists.intro m
      apply Exists.intro t
      apply And.intro rfl
      constructor
      · simpa using hm
      · intro _
        by_cases hnil : d = []
        · simpa [hnil] using Nat.lt_of_not_le hcut
        · simpa using hd hnil

theorem relativePath_append (r s : List FileName) :
    relativePath (r ++ s) = relativePath r ++ relativePath s :=
  List.flatMap_append

theorem cut_first {d t : List FileName}
    (hlen : maxPathLength ≤ (path ++ relativePath (d ++ [n])).length) :
    (path ++ relativePath (d ++ n :: t)).take (maxPathLength - 1) =
      joinPath (path ++ relativePath d) n.val := by
  have hsplit : path ++ relativePath (d ++ n :: t) =
      path ++ relativePath (d ++ [n]) ++ relativePath t := by
    rw [List.append_cons, relativePath_append, List.append_assoc]
  rw [hsplit, List.take_append_of_le_length ((Nat.sub_le _ 1).trans hlen), joinPath_eq,
    relativePath_append, List.append_assoc]

theorem component_down {c : Bytes} {m : FileName} (h : component c = .down m) : c = m.val := by
  unfold component at h
  split at h
  · exact congrArg Subtype.val (Component.down.inj h)
  · split at h <;> contradiction

theorem resolve_component {c : Bytes} (hc : slash ∉ c) (h : resolve fs cwd path = .ok p)
    (hdir : fs.node p = some .dir) :
    resolve fs cwd (path ++ slash :: c) = .ok ((component c).next p) := by
  have hpath := resolve_ne_nil h
  have hne : path ++ slash :: c ≠ [] := List.append_ne_nil_of_left_ne_nil hpath _
  unfold resolve at h ⊢
  rw [if_neg hpath] at h
  rw [if_neg hne, List.head?_append_of_ne_nil _ hpath, List.splitOn_append_cons_self,
    List.splitOn_eq_singleton hc, List.map_append, Disk.walk_append, h]
  simp only [List.map_singleton, Except.bind, Disk.walk, hdir]

/-- The string that is cut off names a directory with entries, or one whose own string is the
same. -/
theorem joinPath_cut (h : resolve fs cwd path = .ok p) (hdir : fs.node p = some .dir)
    (hn : n ∈ fs.children p) (hfit : path.length < maxPathLength)
    (hlen : maxPathLength ≤ (path ++ relativePath [n]).length)
    (hq : statAt fs cwd (joinPath path n.val) = some (q, .dir)) :
    fs.children q ≠ [] ∨
      ∃ m ∈ fs.children p, m ≠ n ∧ joinPath path m.val = joinPath path n.val := by
  have hnil : fs.children p ≠ [] := List.ne_nil_of_mem hn
  by_cases hfull : maxPathLength - 1 ≤ path.length
  · left
    rw [joinPath_full n hfull, List.take_of_length_le (Nat.le_sub_one_of_lt hfit)] at hq
    obtain ⟨hres, _⟩ := statAt_ok hq
    have hpq : p = q := Except.ok.inj (h.symm.trans hres)
    rwa [← hpq]
  · obtain ⟨k, hk⟩ : ∃ k, maxPathLength - 1 = path.length + (k + 1) :=
      ⟨maxPathLength - 1 - path.length - 1, by omega⟩
    have hjoin : joinPath path n.val = path ++ slash :: n.val.take k := by
      rw [joinPath, hk, List.take_length_add_append, List.take_succ_cons]
    have hslash : slash ∉ n.val.take k := fun hmem => n.no_slash (List.mem_of_mem_take hmem)
    rw [hjoin] at hq ⊢
    obtain ⟨hres, hqdir⟩ := statAt_ok hq
    rw [resolve_component hslash h hdir] at hres
    have hq : (component (n.val.take k)).next p = q := Except.ok.inj hres
    cases hc : component (n.val.take k) with
    | here =>
      rw [hc] at hq
      have hq : p = q := hq
      rw [← hq]
      exact .inl hnil
    | up =>
      rw [hc] at hq
      have hq : p.dropLast = q := hq
      left
      by_cases hp : p = []
      · have hpq : p = q := by
          rw [← hq, hp]
          rfl
        rwa [← hpq]
      · have hmem : p.getLast hp ∈ fs.children q := by
          apply fs.mem_children.mpr
          rw [← hq, List.dropLast_append_getLast, hdir]
          simp
        exact List.ne_nil_of_mem hmem
    | down m =>
      have hm := component_down hc
      rw [hc] at hq
      have hq : p ++ [m] = q := hq
      right
      apply Exists.intro m
      apply And.intro
      · apply fs.mem_children.mpr
        rw [hq, hqdir]
        simp
      constructor
      · intro heq
        have hshort := congrArg List.length hm
        rw [heq, List.length_take] at hshort
        simp only [relativePath_cons, relativePath_nil, List.append_nil, List.length_append,
          List.length_cons] at hlen
        omega
      · rw [hm, joinPath, List.take_of_length_le]
        have hshort := List.length_take_le k n.val
        rw [hm] at hshort
        simp only [List.length_append, List.length_cons]
        omega

theorem cut_child (hv : v.Total) (h : resolve fs cwd path = .ok p)
    (hdir : fs.node p = some .dir) (hn : n ∈ fs.children p)
    (hlen : maxPathLength ≤ (path ++ relativePath [n]).length)
    (hq : statAt fs cwd (joinPath path n.val) = some (q, .dir))
    (hw : v.walk fs cwd mtime fuel path w = some w') (hnodup : w'.entered.Nodup) :
    maxPathLength ≤ path.length ∧ fs.children p = [n] ∧ fs.children q = [] := by
  cases fuel with
  | zero => contradiction
  | succ fuel =>
    rw [walk_dir (statAt_of h hdir)] at hw
    have hempty : fs.children q = [] := by
      apply List.eq_nil_iff_forall_not_mem.mpr
      intro m hm
      obtain ⟨u, u', hu, _⟩ := loop_calls hv hn hq hw
      have hcut : (joinPath path n.val).length = maxPathLength - 1 := by
        rw [joinPath_eq, List.length_take]
        omega
      rw [walk_round hv hcut hq hm] at hu
      contradiction
    have hone : ∀ m ∈ fs.children p, joinPath path m.val = joinPath path n.val → m = n := by
      intro m hm heq
      by_contra hne
      have hmq := hq
      rw [← heq] at hmq
      exact loop_twice hv hne hm hn hmq hq hw hnodup
    have hlong : maxPathLength ≤ path.length := by
      by_contra hfit
      rcases joinPath_cut h hdir hn (by omega) hlen hq with hchild | ⟨m, hm, hne, heq⟩
      · exact hchild hempty
      · exact hne (hone m hm heq)
    apply And.intro hlong
    apply And.intro _ hempty
    have hall : ∀ m ∈ fs.children p, m = n := by
      intro m hm
      apply hone m hm
      have hfull : maxPathLength - 1 ≤ path.length := (Nat.sub_le _ 1).trans hlong
      rw [joinPath_full m hfull, joinPath_full n hfull]
    apply List.perm_singleton.mp
    apply (List.perm_ext_iff_of_nodup fs.children_nodup (List.nodup_singleton n)).mpr
    intro m
    rw [List.mem_singleton]
    constructor
    · exact hall m
    · intro heq
      rwa [heq]

/-- A walk that ends without opening a directory twice meets no string that leads it astray. -/
theorem ends_cuts (hv : v.Total) (h : resolve fs cwd path = .ok p) {state : σ}
    (hends : v.Ends fs cwd mtime path state) : CutsNone fs cwd p path ∨ CutsOnce fs cwd p path := by
  by_cases hnone : CutsNone fs cwd p path
  · exact .inl hnone
  · unfold CutsNone at hnone
    push Not at hnone
    obtain ⟨r, hr, hnode, hlen, q, hq⟩ := hnone
    obtain ⟨fuel, w, hw, hnodup⟩ := hends
    obtain ⟨d, n, t, rfl, hcut, hd⟩ := first_cut hr hlen
    rw [cut_first hcut] at hq
    have hddir : fs.node (p ++ d) = some .dir := by
      rw [← List.append_assoc] at hnode
      exact fs.above hnode (List.cons_ne_nil n t)
    have hchild : n ∈ fs.children (p ++ d) := by
      apply fs.mem_children.mpr
      rw [List.append_cons, ← List.append_assoc, ← List.append_assoc] at hnode
      by_cases ht : t = []
      · rwa [ht, List.append_nil] at hnode
      · rw [fs.above hnode ht]
        simp
    obtain ⟨fuel', u, u', hu, hpre⟩ := walk_descends hv h hddir hd hw
    have hresolve := resolve_there (r := d) h (by rw [hddir]; simp)
    rw [relativePath_append, ← List.append_assoc] at hcut
    obtain ⟨hlong, hone, hempty⟩ := cut_child hv hresolve hddir hchild hcut hq hu
      (hpre.sublist.nodup hnodup)
    have hnil : d = [] := by
      by_contra hne
      exact absurd (hd hne) (Nat.not_lt.mpr hlong)
    subst hnil
    right
    simp only [relativePath_nil, List.append_nil] at hlong hone hq
    rw [joinPath_full n ((Nat.sub_le _ 1).trans hlong)] at hq
    exact ⟨hlong, n, q, hone, hq, hempty⟩

end Cut

theorem directoryContents_total : directoryContents.Total := by
  intro path time state h
  contradiction

theorem serverEnds_iff (fs : FileSystem) (cwd : List FileName) (mtime : List FileName → ℤ)
    (path : Path) : ServerEnds fs cwd mtime path ↔ directoryContents.Ends fs cwd mtime path [] := by
  constructor
  · rintro ⟨fuel, contents, w, _, hw, hnodup⟩
    exact ⟨fuel, w, hw, hnodup⟩
  · rintro ⟨fuel, w, hw, hnodup⟩
    have hstate := getDirectoryContents_walk fs cwd mtime fuel path ⟨[], []⟩
    rw [hw, Option.map_some] at hstate
    obtain ⟨contents, hcontents, _⟩ := Option.map_eq_some_iff.mp hstate.symm
    exact ⟨fuel, contents, w, hcontents, hw, hnodup⟩

theorem treeWalks_end_iff (fs : FileSystem) (cwd p : List FileName) (mtime : List FileName → ℤ)
    (path : Path) (h : resolve fs cwd path = .ok p) (hdir : fs.node p = some .dir) :
    (ServerEnds fs cwd mtime path ∧
      ∀ t, saveFileModificationTimes.Ends fs cwd mtime path t) ↔
        CutsNone fs cwd p path ∨ CutsOnce fs cwd p path := by
  rw [serverEnds_iff]
  constructor
  · rintro ⟨hserver, _⟩
    exact ends_cuts directoryContents_total h hserver
  · rintro (hcut | hcut)
    · exact ⟨hcut.ends h hdir [], hcut.ends h hdir⟩
    · exact ⟨hcut.ends h hdir [], hcut.ends h hdir⟩

theorem FitsBelow.cutsNone {fs : FileSystem} {cwd p : List FileName} {path : Path}
    (h : FitsBelow fs p path) : CutsNone fs cwd p path := by
  intro r hr hnode hlong
  exact absurd (h r hr hnode) (Nat.not_lt.mpr hlong)

theorem treeWalks_end_treeBelow : ServerEnds treeBelow [] (fun _ => 0) (utf8 "s/") ∧
    ∀ t, saveFileModificationTimes.Ends treeBelow [] (fun _ => 0) (utf8 "s/") t := by
  have hfit : FitsBelow treeBelow [nameS] (utf8 "s/") := by decide
  exact (treeWalks_end_iff treeBelow [] [nameS] (fun _ => 0) (utf8 "s/") (by decide)
    (by decide)).mpr (.inl hfit.cutsNone)

/-! ### A path of 1022 bytes -/

def longName (k : ℕ) : FileName := ⟨List.replicate (k + 1) 120, by
  have hall : ∀ b ∈ List.replicate (k + 1) (120 : Byte), b = 120 :=
    fun b hb => List.eq_of_mem_replicate hb
  have hslash : slash ∉ List.replicate (k + 1) (120 : Byte) :=
    fun hmem => absurd (hall _ hmem) (by decide)
  have hzero : (0 : Byte) ∉ List.replicate (k + 1) (120 : Byte) :=
    fun hmem => absurd (hall _ hmem) (by decide)
  refine ⟨⟨by simp, hslash, hzero⟩, ?_, ?_⟩ <;> intro heq <;>
    exact absurd (hall dot (by simp [heq])) (by decide)⟩

def nested (n : FileName) : ℕ → FileSystem
  | 0 => .blank
  | k + 1 => match (nested n k).mkdir (List.replicate (k + 1) n) with
    | .ok fs => fs
    | .error _ => nested n k

section Nested
variable {n : FileName} {k j : ℕ}

theorem nested_node : (∀ j ≤ k, (nested n k).node (List.replicate j n) = some .dir) ∧
    ∀ j, k < j → (nested n k).node (List.replicate j n) = none := by
  induction k with
  | zero =>
    constructor
    · intro j hj
      rw [Nat.le_zero.mp hj]
      exact Disk.node_root _
    · intro j hj
      rw [nested, Disk.node_blank, if_neg]
      intro hnil
      have hlen := congrArg List.length hnil
      rw [List.length_replicate] at hlen
      exact absurd hlen (Nat.pos_iff_ne_zero.mp hj)
  | succ k ih =>
    obtain ⟨hdir, hnone⟩ := ih
    have hparent : (nested n k).node (List.replicate (k + 1) n).dropLast = some .dir := by
      rw [List.dropLast_replicate]
      exact hdir k le_rfl
    obtain ⟨fs, hmkdir, hfs⟩ := (nested n k).mkdir_new (hnone (k + 1) (Nat.lt_succ_self k)) hparent
    have hnested : nested n (k + 1) = fs := by
      rw [nested, hmkdir]
    have hnode : ∀ j, fs.node (List.replicate j n) =
        if j = k + 1 then some .dir else (nested n k).node (List.replicate j n) := by
      intro j
      rw [hfs]
      by_cases hj : j = k + 1
      · rw [if_pos hj, hj, if_pos rfl]
      · have hne : List.replicate j n ≠ List.replicate (k + 1) n := by
          intro heq
          have hlen := congrArg List.length heq
          rw [List.length_replicate, List.length_replicate] at hlen
          exact hj hlen
        rw [if_neg hj, if_neg hne]
    rw [hnested]
    constructor
    · intro j hj
      rw [hnode]
      split
      · rfl
      · exact hdir j (by omega)
    · intro j hj
      rw [hnode, if_neg (by omega)]
      exact hnone j (by omega)

theorem relativePath_replicate_length (n : FileName) (k : ℕ) :
    (relativePath (List.replicate k n)).length = k * (n.val.length + 1) := by
  induction k with
  | zero => simp
  | succ k ih =>
    rw [List.replicate_succ, relativePath_cons, List.length_append, ih, List.length_cons]
    rw [Nat.succ_mul, Nat.add_comm]

end Nested

/-- Five directories of 254 bytes in one another, walked from the fourth: the string
of the fifth is cut off behind the separator. -/
theorem walk_goes_round : ∃ fs cwd p path, resolve fs cwd path = .ok p ∧
    fs.node p = some .dir ∧ ∀ mtime, ¬ ServerEnds fs cwd mtime path := by
  let n := longName 253
  have hn : n.val.length = 254 := List.length_replicate
  obtain ⟨hdirs, -⟩ := nested_node (n := n) (k := 5)
  have hroot : resolve (nested n 5) [] (utf8 "..") = .ok [] := by
    have hsplit : ((utf8 "..").splitOn slash).map component = [.up] := by decide
    rw [resolve, if_neg (by decide), if_neg (by decide), hsplit, Disk.walk, Disk.node_root]
    rfl
  have hdir : (nested n 5).node (List.replicate 4 n) = some .dir := hdirs 4 (by decide)
  have hpath : resolve (nested n 5) [] (utf8 ".." ++ relativePath (List.replicate 4 n)) =
      .ok (List.replicate 4 n) := resolve_there hroot (by rw [List.nil_append, hdir]; simp)
  have hlen : (utf8 ".." ++ relativePath (List.replicate 4 n)).length = 1022 := by
    rw [List.length_append, relativePath_replicate_length, hn]
    rfl
  apply Exists.intro (nested n 5)
  apply Exists.intro []
  apply Exists.intro (List.replicate 4 n)
  apply Exists.intro (utf8 ".." ++ relativePath (List.replicate 4 n))
  apply And.intro hpath
  apply And.intro hdir
  intro mtime hends
  rw [serverEnds_iff] at hends
  rcases ends_cuts directoryContents_total hpath hends with hnone | ⟨hlong, _⟩
  · apply hnone [n] (List.cons_ne_nil _ _) _ _ (List.replicate 4 n)
    · rw [← joinPath_eq, joinPath, show maxPathLength - 1 =
        (utf8 ".." ++ relativePath (List.replicate 4 n)).length + 1 by rw [hlen]; rfl,
        List.take_length_add_append]
      exact statAt_of (resolve_component (c := []) List.not_mem_nil hpath hdir) hdir
    · have hfive : (nested n 5).node (List.replicate 5 n) = some .dir := hdirs 5 le_rfl
      rw [← List.replicate_succ', hfive]
      simp
    · rw [List.length_append, hlen]
      simp [hn, maxPathLength]
  · rw [hlen] at hlong
    exact absurd hlong (by decide)

end AdvancedCProjects.Bibak
