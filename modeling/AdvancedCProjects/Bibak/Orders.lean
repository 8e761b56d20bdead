import AdvancedCProjects.Bibak.Cleared

/-!
# Orders of reading that show what is wrong

`readdir` may return the entries of a directory in any order, so an entry that is in
the way can be the first one or the last one everywhere.
-/

namespace AdvancedCProjects.Bibak
open Base

namespace Clearing

/-- First the names that meet `early`, then of the others those that meet `middle`. -/
def arranged {α : Type} (early middle : α → Bool) (xs : List α) : List α :=
  let others := xs.filter fun x => !early x
  xs.filter early ++ (others.filter middle ++ others.filter fun x => !middle x)

theorem arranged_perm {α : Type} (early middle : α → Bool) (xs : List α) :
    (arranged early middle xs).Perm xs := by
  have hothers := List.filter_append_perm middle (xs.filter fun x => !early x)
  exact (hothers.append_left _).trans (List.filter_append_perm early xs)

def readOrder (cwd : List FileName) (early middle : Path → Name → Bool) : ReadOrder :=
  fun fs path => match follow fs cwd path with
    | some (p, _) => arranged (early path) (middle path)
        ([dot] :: [dot, dot] :: (fs.children p).map Subtype.val)
    | none => []

section Converse
variable {fs fs' fs₀ : LinkedSystem} {cwd d p q r : List FileName} {path : Path} {n : FileName}
  {names : List FileName} {k l : ℕ} {early middle : Path → Name → Bool}

theorem readOrder_eq (hpath : path ≠ []) (hat : At cwd path fs names p k) :
    readOrder cwd early middle fs (path ++ relativePath names) =
      arranged (early (path ++ relativePath names)) (middle (path ++ relativePath names))
        ([dot] :: [dot, dot] :: (fs.children p).map Subtype.val) := by
  simp only [readOrder, (follow_iff hpath).mpr hat]

theorem readOrder_ok (cwd : List FileName) (early middle : Path → Name → Bool) :
    (readOrder cwd early middle).Ok cwd := by
  intro fs path p k hfollow hdir
  simp only [readOrder, hfollow]
  exact arranged_perm _ _ _

def Deep (fs : LinkedSystem) (fuel : ℕ) : Prop := (maxLinks + 1) * (fs.depth + 1) < fuel

theorem Names.ends (h : Names cwd path fs d k) {order : ReadOrder} (horder : order.Ok cwd)
    {fuel : ℕ} (hfuel : Deep fs fuel) :
    ∃ fs', clearDirectory order cwd fuel path fs = some fs' := by
  have hheight (q : List FileName) (hq : fs.node q ≠ none) : q.length < fs.depth + 1 :=
    Nat.lt_succ_of_le (fs.length_le_depth hq)
  have hk : k ≤ maxLinks := Nodes.Leads.le h.at_nil
  rw [← List.append_nil path, ← relativePath_nil]
  apply clearDirectory_ends horder h.nonempty h.fits hheight h.at_nil
  have hmul : k * (fs.depth + 1) ≤ maxLinks * (fs.depth + 1) := Nat.mul_le_mul_right _ hk
  unfold Deep at hfuel
  rw [Nat.succ_mul] at hfuel
  omega

def AlwaysClears (cwd : List FileName) (path : Path) (fs : LinkedSystem) (d : List FileName) :
    Prop :=
  ∀ order : ReadOrder, order.Ok cwd → ∀ fuel, Deep fs fuel →
    ∃ fs', clearDirectory order cwd fuel path fs = some fs' ∧ Clears d fs fs'

theorem AlwaysClears.run (hall : AlwaysClears cwd path fs d) (h : Names cwd path fs d k)
    (early middle : Path → Name → Bool) : ∃ fuel fs',
      clearDirectory (readOrder cwd early middle) cwd fuel (path ++ relativePath []) fs = some fs' ∧
        Steps cwd path [] fs fs' ∧ Clears d fs fs' := by
  have hdeep : Deep fs ((maxLinks + 1) * (fs.depth + 1) + 1) := Nat.lt_succ_self _
  obtain ⟨fs', hrun, hclears⟩ := hall _ (readOrder_ok cwd early middle) _ hdeep
  rw [← List.append_nil path, ← relativePath_nil] at hrun
  have hsteps := clearDirectory_steps (readOrder_ok cwd early middle) h.nonempty _ h.fits hrun
  exact ⟨_, fs', hrun, hsteps, hclears⟩

theorem Clears.not_stuck (hclears : Clears d fs fs') (hr : r ≠ [])
    (h : Stuck fs' k (d ++ r ++ [n])) : False := by
  have hdir := fs'.above (p := d ++ r) h.there (List.cons_ne_nil _ _)
  exact (hclears.beneath _ ⟨r, hr, rfl⟩).1 hdir

theorem AlwaysClears.linksToFiles (hall : AlwaysClears cwd path fs d) (h : Names cwd path fs d k) :
    LinksToFiles fs d k := by
  intro r n hr hlink
  by_contra hno
  obtain ⟨fuel, fs', -, hsteps, hclears⟩ := hall.run h (fun _ _ => true) fun _ _ => true
  have hstuck : Stuck fs k (d ++ r ++ [n]) :=
    .link hlink fun q l hq hregular => hno ⟨q, l, hq, hregular⟩
  exact hclears.not_stuck hr (hstuck.steps (fun _ _ _ hat => h.le hat) hsteps)

/-! ### The entry that is taken away first -/

theorem filter_first {α : Type} {f : α → Bool} {xs : List α} {x : α} (hx : x ∈ xs)
    (hf : ∀ y, f y = true ↔ y = x) : ∃ rest, xs.filter f = x :: rest := by
  have hmem : x ∈ xs.filter f := List.mem_filter.mpr ⟨hx, (hf x).mpr rfl⟩
  cases hfilter : xs.filter f with
  | nil =>
    rw [hfilter] at hmem
    contradiction
  | cons y ys =>
    have hy : y ∈ xs.filter f := by
      rw [hfilter]
      exact List.mem_cons_self
    obtain rfl := (hf y).mp (List.mem_filter.mp hy).2
    exact ⟨ys, rfl⟩

theorem arranged_first {α : Type} {early : α → Bool} (middle : α → Bool) {xs : List α} {x : α}
    (hx : x ∈ xs) (hearly : ∀ y, early y = true ↔ y = x) :
    ∃ rest, arranged early middle xs = x :: rest := by
  obtain ⟨rest, hrest⟩ := filter_first hx hearly
  exact ⟨_, by rw [arranged, hrest]; rfl⟩

theorem arranged_then {α : Type} {early middle : α → Bool} {xs : List α} {x : α} (hx : x ∈ xs)
    (hearly : early x = false) (hmiddle : ∀ y, middle y = true ↔ y = x) :
    ∃ rest, arranged early middle xs = xs.filter early ++ x :: rest := by
  have hothers : x ∈ xs.filter fun y => !early y := List.mem_filter.mpr ⟨hx, by simp [hearly]⟩
  obtain ⟨rest, hrest⟩ := filter_first hothers hmiddle
  exact ⟨_, by rw [arranged, hrest]; rfl⟩

theorem At.front {b : List FileName} (hat : At cwd path fs (names ++ b) p l) :
    ∃ q j, At cwd path fs names q j ∧ Nodes.Leads fs.node q j (b.map .down) p l := by
  unfold At at hat
  rw [List.map_append, ← List.append_assoc] at hat
  exact hat.split

theorem clearDirectory_nothing {order : ReadOrder} (horder : order.Ok cwd) (hpath : path ≠ [])
    (hfit : PathsFit cwd path fs) (hat : At cwd path fs names p k)
    (hdir : fs.node p = some .dir) (hempty : fs.children p = []) {fuel : ℕ}
    (h : clearDirectory order cwd fuel (path ++ relativePath names) fs = some fs') : fs' = fs := by
  cases fuel with
  | zero => contradiction
  | succ fuel =>
    have hentries := order_entries horder hpath hfit hat hdir
    have hperm := horder fs _ p k ((follow_iff hpath).mpr hat) hdir
    rw [clearDirectory_eq hpath hat hdir] at h
    rw [hempty] at hperm
    have hdots : ∀ e ∈ order fs (path ++ relativePath names), e = [dot] ∨ e = [dot, dot] := by
      intro e he
      simpa using hperm.mem_iff.mp he
    generalize order fs (path ++ relativePath names) = entries at h hentries hdots
    clear hperm
    induction entries with
    | nil => exact (Option.some.inj h).symm
    | cons e entries ih =>
      rw [clearEntries_dots hpath (hentries e List.mem_cons_self)
        (hdots e List.mem_cons_self)] at h
      exact ih h (fun e he => hentries e (List.mem_cons_of_mem _ he))
        fun e he => hdots e (List.mem_cons_of_mem _ he)

theorem Enters.entry (h : Enters fs p l n q k) : fs.node (p ++ [n]) ≠ none := by
  rcases h.cases.2 with ⟨rfl, -, x, hx, -⟩ | ⟨-, absolute, target, hlink⟩
  · exact fs.there hx
  · exact fs.there hlink

/-- What the recursion can take away at once. -/
def Removable (fs : LinkedSystem) (p : List FileName) (l : ℕ) (n : FileName) : Prop :=
  (∃ q j, Enters fs p l n q j ∧ Regular fs q) ∨
    fs.node (p ++ [n]) = some .dir ∧ fs.children (p ++ [n]) = []

theorem Removable.there (h : Removable fs p l n) : fs.node (p ++ [n]) ≠ none := by
  rcases h with ⟨q, j, hn, hregular⟩ | ⟨hdir, -⟩
  · exact hn.entry
  · exact fs.there hdir

theorem EntryResult.gone {sub : Path → LinkedSystem → Option LinkedSystem} (hpath : path ≠ [])
    (hat : At cwd path fs names p l) (h : Removable fs p l n)
    (hresult : EntryResult cwd path sub names n fs (some fs'))
    (hsub : fs.node (p ++ [n]) = some .dir → fs.children (p ++ [n]) = [] → ∀ fs',
      sub (path ++ relativePath (names ++ [n])) fs = some fs' → fs' = fs) :
    fs'.node (p ++ [n]) = none := by
  generalize hsome : some fs' = result at hresult
  cases hresult with
  | @dir q j hq hdir =>
    obtain ⟨fs₂, hcleared, rfl⟩ := Option.map_eq_some_iff.mp hsome.symm
    rcases h with ⟨q', j', hn, hregular⟩ | ⟨hreal, hempty⟩
    · obtain ⟨rfl, -⟩ := hq.unique (at_append.mpr ⟨p, l, hat, hn⟩)
      exact (hregular.not_dir hdir).elim
    · rw [hsub hreal hempty fs₂ hcleared]
      obtain ⟨fs₃, hfs₃, hwithout⟩ := rmdir_empty hpath hat hreal hempty
      rw [hfs₃, Option.getD_some, hwithout, if_pos rfl]
  | file hat' hn hregular hwithout =>
    cases hsome
    obtain ⟨rfl, -⟩ := hat.unique hat'
    rw [hwithout, if_pos rfl]
  | skipped hnone =>
    rcases h with ⟨q, j, hn, hregular⟩ | ⟨hreal, -⟩
    · exact ((hnone q j (at_append.mpr ⟨p, l, hat, hn⟩)).2 hregular).elim
    · exact ((hnone _ l (at_append.mpr ⟨p, l, hat, .dir hreal⟩)).1 hreal).elim

theorem Sub.gone (h : Sub fs' fs) (hq : fs.node q = none) : fs'.node q = none := by
  by_contra hthere
  exact h.there hthere hq

theorem dir_of_leads {comps : List (Component FileName)}
    (h : Nodes.Leads fs.node q k comps p l) (hp : fs.node p = some .dir) :
    fs.node q = some .dir := by
  cases h with
  | done => exact hp
  | next hdir => exact hdir
  | link hdir => exact hdir

/-- Where the directories on the way read the next name first, the first thing that a call
does is to go there. -/
theorem clearDirectory_first (h : Names cwd path fs d k) (hat : At cwd path fs names p l)
    (hthere : fs.node (p ++ [n]) ≠ none)
    (hearly : ∀ e, early (path ++ relativePath names) e = true ↔ e = n.val) {fuel : ℕ}
    (hrun : clearDirectory (readOrder cwd early middle) cwd fuel (path ++ relativePath names) fs =
      some fs') : ∃ fuel' fs₁, EntryResult cwd path
        (clearDirectory (readOrder cwd early middle) cwd fuel') names n fs (some fs₁) ∧
      Steps cwd path names fs₁ fs' := by
  cases fuel with
  | zero => contradiction
  | succ fuel =>
    have horder := readOrder_ok cwd early middle
    have hdir : fs.node p = some .dir := fs.above hthere (List.cons_ne_nil _ _)
    have hentries := order_entries horder h.nonempty h.fits hat hdir
    rw [clearDirectory_eq h.nonempty hat hdir] at hrun
    have hmem : n.val ∈ [dot] :: [dot, dot] :: (fs.children p).map Subtype.val := by
      simp only [List.mem_cons, List.mem_map]
      exact .inr (.inr ⟨n, fs.mem_children.mpr hthere, rfl⟩)
    rw [readOrder_eq h.nonempty hat] at hrun hentries
    obtain ⟨rest, hrest⟩ := arranged_first (middle (path ++ relativePath names)) hmem hearly
    rw [hrest] at hrun hentries
    have hcalls := clearDirectory_below horder h.nonempty fuel names
    obtain ⟨fs₁, hresult, hlast⟩ := clearEntries_next h.nonempty
      (hentries n.val List.mem_cons_self) hrun
    have hsteps := hresult.steps h.nonempty fun fs' => hcalls n fs fs' h.fits
    have hlast := clearEntries_steps h.nonempty hcalls
      (fun e he => hentries e (List.mem_cons_of_mem _ he)) (h.fits.sub hsteps.sub) hlast
    exact ⟨fuel, fs₁, hresult, hlast⟩

theorem first_gone (h : Names cwd path fs d k) (hat : At cwd path fs names p l)
    (hremovable : Removable fs p l n)
    (hearly : ∀ done m todo, names ++ [n] = done ++ m :: todo →
      ∀ e, early (path ++ relativePath done) e = true ↔ e = m.val)
    {done todo : List FileName} {m : FileName} {fuel : ℕ} (hway : names ++ [n] = done ++ m :: todo)
    (hrun : clearDirectory (readOrder cwd early middle) cwd fuel (path ++ relativePath done) fs =
      some fs') : fs'.node (p ++ [n]) = none := by
  have horder := readOrder_ok cwd early middle
  induction todo generalizing done m fuel fs' with
  | nil =>
    obtain ⟨rfl, rfl⟩ := List.append_singleton_inj.mp hway
    obtain ⟨fuel', fs₁, hresult, hsteps⟩ := clearDirectory_first h hat hremovable.there
      (hearly _ _ _ hway) hrun
    refine hsteps.sub.gone (hresult.gone h.nonempty hat hremovable fun hreal hempty fs₂ hfs₂ => ?_)
    exact clearDirectory_nothing horder h.nonempty h.fits
      (at_append.mpr ⟨p, l, hat, .dir hreal⟩) hreal hempty hfs₂
  | cons m' todo ih =>
    obtain ⟨b, hb⟩ : ∃ b, names = (done ++ [m]) ++ b := by
      refine ⟨(m' :: todo).dropLast, ?_⟩
      have hlast := congrArg List.dropLast hway
      rw [List.dropLast_concat, List.append_cons, List.dropLast_append_of_ne_nil (by simp)]
        at hlast
      exact hlast
    have hp : fs.node p = some .dir := fs.above hremovable.there (List.cons_ne_nil _ _)
    rw [hb] at hat
    obtain ⟨q, j, hq, hrest⟩ := hat.front
    have hqdir := dir_of_leads hrest hp
    obtain ⟨p', l', hat', hn⟩ := at_append.mp hq
    obtain ⟨fuel', fs₁, hresult, hsteps⟩ := clearDirectory_first h hat' hn.entry
      (hearly _ _ _ hway) hrun
    apply hsteps.sub.gone
    generalize hsome : some fs₁ = result at hresult
    cases hresult with
    | dir =>
      obtain ⟨fs₂, hfs₂, rfl⟩ := Option.map_eq_some_iff.mp hsome.symm
      have hrmdir := rmdir_steps cwd h.nonempty fs₂ done m
      exact hrmdir.sub.gone (ih (by rw [hway, List.append_cons]) hfs₂)
    | file hat'' hn' hregular =>
      obtain ⟨rfl, -⟩ := (at_append.mpr ⟨_, _, hat'', hn'⟩ : At cwd path fs _ _ _).unique hq
      exact (hregular.not_dir hqdir).elim
    | skipped hnone => exact ((hnone q j hq).1 hqdir).elim

/-- `P` holds of the way to `directory` down `w` and of the next name. -/
def OnWay (path : Path) (w : List FileName) (P : List FileName → FileName → Prop)
    (directory : Path) : Prop :=
  ∃ done m todo, w = done ++ m :: todo ∧ directory = path ++ relativePath done ∧ P done m

theorem onWay_iff {w done todo : List FileName} {m : FileName} (hw : w = done ++ m :: todo)
    (P : List FileName → FileName → Prop) :
    OnWay path w P (path ++ relativePath done) ↔ P done m := by
  constructor
  · rintro ⟨done', m', todo', hw', hpath, hP⟩
    obtain rfl := relativePath_injective (List.append_cancel_left hpath)
    rw [hw] at hw'
    obtain ⟨rfl, -⟩ := List.cons.inj (List.append_cancel_left hw')
    exact hP
  · intro hP
    exact ⟨done, m, todo, hw, rfl, hP⟩

theorem AlwaysClears.nothingOutside (hall : AlwaysClears cwd path fs d)
    (h : Names cwd path fs d k) : NothingOutside cwd path fs d := by
  classical
  intro names p l hat hne hnot n
  have hkept (hremovable : Removable fs p l n) : False := by
    obtain ⟨fuel, fs', hrun, -, hclears⟩ := hall.run h
      (fun directory e => decide (OnWay path (names ++ [n]) (fun _ m => e = m.val) directory))
      fun _ _ => true
    obtain ⟨m, todo, hway⟩ : ∃ m todo, names ++ [n] = [] ++ m :: todo := by
      cases names with
      | nil => exact ⟨n, [], rfl⟩
      | cons m names => exact ⟨m, names ++ [n], rfl⟩
    have hgone := first_gone h hat hremovable
      (fun done m todo hw e => decide_eq_true_iff.trans (onWay_iff hw _)) hway hrun
    have hbeneath : ¬ Beneath d (p ++ [n]) := fun hb => (beneath_of_snoc hb).elim hne hnot
    rw [hclears.outside _ hbeneath] at hgone
    exact hremovable.there hgone
  constructor
  · intro q j hn hregular
    exact hkept (.inl ⟨q, j, hn, hregular⟩)
  · intro hdir _ hempty
    exact hkept (.inr ⟨hdir, hempty⟩)

/-! ### The turn of another entry -/

section Turns
variable {sub : Path → LinkedSystem → Option LinkedSystem} {done todo : List FileName}
  {m o : FileName} (h : Names cwd path fs₀ d k)
  (hlinks : LinksToFiles fs₀ d k)
include h hlinks

/-- Beneath a directory beneath `d` the recursion follows no link to a directory. -/
theorem at_real (hr : r ≠ []) (hreal : At cwd path fs₀ r (d ++ r) k) {s : List FileName}
    (hat : At cwd path fs₀ (r ++ s) p l) (hp : fs₀.node p = some .dir) : p = d ++ r ++ s := by
  induction s using List.reverseRecOn generalizing p l with
  | nil =>
    rw [List.append_nil] at hat ⊢
    exact (hat.unique hreal).1
  | append_singleton s n ih =>
    rw [← List.append_assoc] at hat
    obtain ⟨p', l', hat', hn⟩ := at_append.mp hat
    obtain ⟨hp', hcases⟩ := hn.cases
    obtain rfl := ih hat' hp'
    rcases hcases with ⟨rfl, -, -⟩ | ⟨-, hlink⟩
    · rw [List.append_assoc]
    · rw [List.append_assoc d r s] at hlink hn
      obtain ⟨q, j, hq, hregular⟩ := hlinks (r ++ s) n (by simp [hr]) hlink
      obtain rfl := hn.same hq (h.le hat')
      exact (hregular.not_dir hp).elim

theorem steps_keep (hr : r ≠ []) (hreal : At cwd path fs₀ r (d ++ r) k) (hsub : Sub fs fs₀)
    (hq : ¬ Beneath (d ++ r) q) (hsteps : Steps cwd path r fs fs') : fs'.node q = fs.node q := by
  have place {names p : List FileName} {n : FileName} {l : ℕ} {fs : LinkedSystem}
      (hsub : Sub fs fs₀) (hfront : r <+: names) (hat : At cwd path fs names p l)
      (hp : fs.node p = some .dir) : q ≠ p ++ [n] := by
    rintro rfl
    obtain ⟨s, rfl⟩ := hfront
    obtain rfl := at_real h hlinks hr hreal (hat.mono hsub) (hsub _ _ hp)
    exact hq ⟨s ++ [n], by simp, by rw [List.append_assoc (d ++ r)]⟩
  induction hsteps with
  | refl => rfl
  | tail hsteps hstep ih =>
    rw [← ih]
    have hsub' := (Steps.sub hsteps).trans hsub
    cases hstep with
    | unlink hfront hat hn hregular hwithout =>
      rw [hwithout, if_neg (place hsub' hfront hat hn.cases.1)]
    | @rmdir names p n l _ hfront hat hdir hempty hwithout =>
      have hp := Disk.above _ (r := [n]) (Disk.there _ hdir) (List.cons_ne_nil _ _)
      rw [hwithout, if_neg (place hsub' hfront hat hp)]

variable (todo) in
theorem EntryResult.keeps (hresult : EntryResult cwd path sub done o fs (some fs'))
    (hcalls : ∀ fs', sub (path ++ relativePath (done ++ [o])) fs = some fs' →
      Steps cwd path (done ++ [o]) fs fs') (hsub : Sub fs fs₀)
    (hat : At cwd path fs done (d ++ done) k) (hne : o ≠ m)
    (hstay : done = [] → ¬ Stays fs₀ d k (d ++ [o])) :
    fs'.node (d ++ (done ++ m :: todo)) = fs.node (d ++ (done ++ m :: todo)) := by
  have hother : d ++ (done ++ m :: todo) ≠ d ++ done ++ [o] := by
    intro heq
    rw [List.append_assoc d done] at heq
    have hcons := List.append_cancel_left (List.append_cancel_left heq)
    exact hne (List.cons.inj hcons).1.symm
  have hnot : ¬ Beneath (d ++ (done ++ [o])) (d ++ (done ++ m :: todo)) := by
    rintro ⟨t, -, heq⟩
    rw [List.append_assoc d, List.append_assoc done] at heq
    have hcons := List.append_cancel_left (List.append_cancel_left heq)
    exact hne (List.cons.inj hcons).1.symm
  generalize hsome : some fs' = result at hresult
  cases hresult with
  | @dir q l hq hdir =>
    obtain ⟨fs₂, hfs₂, rfl⟩ := Option.map_eq_some_iff.mp hsome.symm
    have hsteps := hcalls fs₂ hfs₂
    obtain ⟨p', l', hat', hn⟩ := at_append.mp hq
    obtain ⟨rfl, rfl⟩ := hat.unique hat'
    rcases hn.cases.2 with ⟨rfl, rfl, -⟩ | ⟨-, absolute, target, hlink⟩
    · have hreal := hq.mono hsub
      rw [List.append_assoc] at hreal
      have hkeep := steps_keep h hlinks (by simp) hreal hsub hnot hsteps
      rcases rmdir_cases cwd h.nonempty fs₂ done o with hsame | ⟨p, j, hat₂, -, -, hwithout⟩
      · rw [hsame, hkeep]
      · obtain ⟨rfl, -⟩ := (hat₂.mono hsteps.sub).unique hat
        rw [hwithout, if_neg hother, hkeep]
    · have hlink₀ : IsLink fs₀ (d ++ done ++ [o]) := ⟨absolute, target, hsub _ _ hlink⟩
      by_cases hnil : done = []
      · subst hnil
        rw [List.append_nil] at hlink₀ hn
        exact (hstay rfl (.of_dir hlink₀ (hn.mono hsub) (hsub _ _ hdir))).elim
      · obtain ⟨q', j, hq', hregular⟩ := hlinks done o hnil hlink₀
        obtain ⟨rfl, -⟩ := (hn.mono hsub).unique hq'
        exact (hregular.not_dir (hsub _ _ hdir)).elim
  | file hat' hn hregular hwithout =>
    cases hsome
    obtain ⟨rfl, -⟩ := hat.unique hat'
    rw [hwithout, if_neg hother]
  | skipped =>
    cases hsome
    rfl

end Turns

/-! ### The way of the path itself -/

/-- The path leads nowhere without the entry at `q`. -/
def Needs (cwd : List FileName) (path : Path) (fs : LinkedSystem) (q : List FileName) : Prop :=
  ∀ nodes : Nodes FileName Bytes, (∀ s x, nodes s = some x → fs.node s = some x) →
    nodes q = none → ∀ p l, ¬ Nodes.Leads nodes (pathStart cwd path) maxLinks (components path) p l

theorem Needs.not_at (hneeds : Needs cwd path fs q) (hsub : Sub fs' fs)
    (hgone : fs'.node q = none) : ¬ At cwd path fs' names p l := by
  intro hat
  obtain ⟨m, j, hfirst, -⟩ := Nodes.Leads.split hat
  exact hneeds fs'.node hsub hgone m j hfirst

theorem Removes.at (h : Removes cwd path names fs fs') : ∃ names p l, At cwd path fs names p l := by
  cases h with
  | unlink _ hat => exact ⟨_, _, _, hat⟩
  | rmdir _ hat => exact ⟨_, _, _, hat⟩

theorem Steps.removed (hsteps : Steps cwd path names fs fs') (hdir : fs.node q = some .dir)
    (hgone : fs'.node q ≠ some .dir) : ∃ fs₁, Sub fs₁ fs ∧ fs₁.children q = [] ∧
      ∃ names p l, At cwd path fs₁ names p l := by
  induction hsteps with
  | refl => exact (hgone hdir).elim
  | @tail fs₁ fs' hsteps hstep ih =>
    by_cases hdir₁ : fs₁.node q = some .dir
    case neg => exact ih hdir₁
    refine ⟨fs₁, Steps.sub hsteps, ?_, hstep.at⟩
    cases hstep with
    | unlink _ _ hn hregular hwithout =>
      refine (hgone ?_).elim
      rw [hwithout, if_neg, hdir₁]
      rintro rfl
      obtain ⟨leaf, hleaf⟩ := hn.leaf hregular
      rw [hdir₁] at hleaf
      cases hleaf
    | @rmdir names p n l _ _ _ _ hempty hwithout =>
      by_cases hq : q = p ++ [n]
      · rw [hq, hempty]
      · refine (hgone ?_).elim
        rw [hwithout, if_neg hq, hdir₁]

theorem Clears.link_left (hclears : Clears d fs fs') (hthere : fs'.node (d ++ [n]) ≠ none) :
    IsLink fs' (d ++ [n]) := by
  obtain ⟨hdir, hregular⟩ := hclears.beneath (d ++ [n]) ⟨[n], List.cons_ne_nil _ _, rfl⟩
  exact (link_or_real hthere).resolve_right fun h => h.elim hdir hregular

/-- The path needs nothing in a directory beneath `d`: this is gone before the directory. -/
theorem AlwaysClears.needs_shallow (hall : AlwaysClears cwd path fs d)
    (h : Names cwd path fs d k) (hneeds : Needs cwd path fs (d ++ [n] ++ r))
    (hthere : fs.node (d ++ [n] ++ r) ≠ none) : r = [] := by
  by_contra hr
  obtain ⟨fuel, fs', -, hsteps, hclears⟩ := hall.run h (fun _ _ => true) fun _ _ => true
  have hgone := (hclears.beneath (d ++ [n]) ⟨[n], List.cons_ne_nil _ _, rfl⟩).1
  obtain ⟨fs₁, hsub, hempty, names, p, l, hat⟩ := hsteps.removed (fs.above hthere hr) hgone
  exact hneeds.not_at hsub (fs₁.node_of_empty hempty hr) hat

theorem way_avoids (hlink : IsLink fs (d ++ [n])) (hn : Enters fs d k n p l) (hp : Regular fs p)
    {comps : List (Component FileName)} {e : List FileName} {i j : ℕ}
    (he : fs.node e = some .dir) (hi : k ≤ i) (hleads : Nodes.Leads fs.node q j comps e i) :
    Nodes.Leads (only fs fun s => s ≠ d ++ [n]) q j comps e i := by
  have real {s : List FileName} {x : Node (Leaf FileName Bytes)} (hx : fs.node s = some x)
      (hno : x.isLink = false) : only fs (fun s => s ≠ d ++ [n]) s = some x := by
    apply only_some _ hx
    rintro rfl
    rw [hlink.isLink hx] at hno
    contradiction
  induction hleads with
  | done => exact .done
  | next hdir hx hno _ ih => exact .next (real hdir rfl) (real hx hno) hno (ih he hi)
  | @link q e j i c comps target absolute hdir hlink' hrest ih =>
    refine .link (real hdir rfl) (only_some (fun heq => ?_) hlink') (ih he hi)
    cases c with
    | here => exact (IsLink.not_dir ⟨_, _, hlink'⟩) hdir
    | up => exact (IsLink.not_dir ⟨_, _, hlink'⟩) (fs.node_dropLast (fs.there hdir))
    | down m =>
      obtain ⟨rfl, rfl⟩ := List.append_singleton_inj.mp heq
      have hwhole : Nodes.Leads fs.node q (j + 1) ([.down m] ++ comps) e i :=
        .link hdir hlink' hrest
      obtain ⟨p', i', hm, hlast⟩ := hwhole.split
      obtain rfl := hn.same hm (hi.trans (hlast.le.trans hm.le))
      exact hp.not_dir (dir_of_leads hlast he)

theorem Needs.stays (h : Names cwd path fs d k) (hneeds : Needs cwd path fs (d ++ [n]))
    (hlink : IsLink fs (d ++ [n])) : Stays fs d k (d ++ [n]) := by
  refine .inr ⟨hlink, n, rfl, fun p l hn hregular => ?_⟩
  refine hneeds _ (fun s x hx => (only_sub hx).2) ?_ d k (way_avoids hlink hn hregular h.dir le_rfl
    h.leads)
  by_contra hthere
  obtain ⟨x, hx⟩ := Option.ne_none_iff_exists'.mp hthere
  exact (only_sub hx).1 rfl

theorem enters_entry (hthere : fs.node (d ++ [n]) ≠ none) (hlink : ¬ IsLink fs (d ++ [n])) (k : ℕ) :
    Enters fs d k n (d ++ [n]) k := by
  rcases link_or_real hthere with h | hdir | ⟨content, hcontent⟩
  · exact (hlink h).elim
  · exact .real hdir rfl k
  · exact .real hcontent rfl k

section Beside
variable {x : FileName} (h : Names cwd path fs d k) (hlinks : LinksToFiles fs d k)
  (hway : Nodes.Leads (only fs fun q => ¬ Beneath (d ++ [x]) q) (pathStart cwd path) maxLinks
    (components path) d k)
  (hthere : fs.node (d ++ [x]) ≠ none) (hlink : ¬ IsLink fs (d ++ [x]))
include h hlinks hway hthere hlink

theorem at_beside (hsteps : Steps cwd path [x] fs fs') : At cwd path fs' [] d k := by
  have hreal : At cwd path fs [x] (d ++ [x]) k :=
    at_append.mpr ⟨d, k, h.at_nil, enters_entry hthere hlink k⟩
  have hleads : Nodes.Leads fs'.node (pathStart cwd path) maxLinks (components path) d k := by
    apply Nodes.Leads.mono _ hway
    intro q y hy
    obtain ⟨hq, hy⟩ := only_sub hy
    rwa [steps_keep h hlinks (List.cons_ne_nil _ _) hreal (.refl fs) hq hsteps]
  unfold At
  rwa [List.map_nil, List.append_nil]

theorem staysOpen_beside : StaysOpen cwd path fs d k [x] := by
  intro fs' r n hsteps hfront _ hn
  have hdir : fs'.node (d ++ r) = some .dir := fs'.above hn (List.cons_ne_nil _ _)
  have hx : fs'.node (d ++ [x]) = some .dir := by
    obtain ⟨t, rfl⟩ := hfront
    apply fs'.above (r := t ++ [n]) _ (by simp)
    rwa [← List.append_assoc, List.append_assoc (d ++ [x]), List.append_assoc d] at hn ⊢
  have hat := at_beside h hlinks hway hthere hlink hsteps
  have hfirst : At cwd path fs' ([] ++ [x]) (d ++ [x]) k := at_append.mpr ⟨d, k, hat, .dir hx⟩
  exact at_below hfirst hfront hdir

/-- When `x` comes first, it goes first, or it is stuck. -/
theorem first_turn {order : ReadOrder} (horder : order.Ok cwd) {fuel : ℕ}
    (hresult : EntryResult cwd path (clearDirectory order cwd fuel) [] x fs (some fs'))
    (hleft : fs'.node (d ++ [x]) ≠ none) : Stuck fs' k (d ++ [x]) := by
  have hcalls (fs₂ : LinkedSystem) :=
    clearDirectory_below horder h.nonempty fuel [] x fs fs₂ h.fits
  refine hresult.stuck h.nonempty hcalls (fun _ _ _ hat => h.le hat) h.at_nil ?_ hleft
  intro fs₂ hfs₂ _
  refine ⟨at_beside h hlinks hway hthere hlink (hcalls fs₂ hfs₂), fun m hm => ?_⟩
  have hopen := staysOpen_beside h hlinks hway hthere hlink
  exact clearDirectory_stuck h hopen horder List.prefix_rfl .refl hfs₂ (by simp) hm

end Beside

theorem way_or_needs (h : Names cwd path fs d k) (keep : List FileName → Prop) :
    Nodes.Leads (only fs keep) (pathStart cwd path) maxLinks (components path) d k ∨
      ∃ q, ¬ keep q ∧ fs.node q ≠ none ∧ Needs cwd path fs q := by
  rcases h.leads.kept_or_needs keep with hkept | hneeds
  · exact .inl (hkept _ fun s x hkeep hx => only_some hkeep hx)
  · exact .inr hneeds

/-- An entry that the path needs is the only one to take away: were it the first one to go,
the others would be left. -/
theorem AlwaysClears.onlyEntry {x : FileName} (hall : AlwaysClears cwd path fs d)
    (h : Names cwd path fs d k) (hneeds : Needs cwd path fs (d ++ [x]))
    (hthere : fs.node (d ++ [x]) ≠ none) (hlink : ¬ IsLink fs (d ++ [x])) :
    OnlyEntry fs d x := by
  intro y hy hylink
  by_contra hne
  have hlinks := hall.linksToFiles h
  have hway : Nodes.Leads (only fs fun q => ¬ Beneath (d ++ [x]) q) (pathStart cwd path) maxLinks
      (components path) d k := by
    rcases way_or_needs h fun q => ¬ Beneath (d ++ [x]) q with hway | ⟨q, hq, hq', hneeds'⟩
    · exact hway
    · obtain ⟨t, ht, rfl⟩ := not_not.mp hq
      exact (ht (hall.needs_shallow h hneeds' hq')).elim
  obtain ⟨early, hearly⟩ : ∃ early : Path → Name → Bool, ∀ directory e,
      early directory e = true ↔ e = x.val := ⟨fun _ e => decide (e = x.val), by simp⟩
  obtain ⟨fuel, fs', hrun, -, hclears⟩ := hall.run h early fun _ _ => true
  obtain ⟨fuel', fs₁, hresult, hsteps⟩ := clearDirectory_first h h.at_nil hthere (hearly _) hrun
  have horder := readOrder_ok cwd early fun _ _ => true
  have hcall (fs₂ : LinkedSystem) :=
    clearDirectory_below horder h.nonempty fuel' [] x fs fs₂ h.fits
  have hsub : Sub fs₁ fs := (hresult.steps h.nonempty hcall).sub
  by_cases hleft : fs₁.node (d ++ [x]) = none
  · -- the path has gone with it
    have hsame : fs₁ = fs' := by
      rcases hsteps.cases_head with heq | ⟨fs₂, hstep, -⟩
      · exact heq
      · obtain ⟨names, p, l, hat⟩ := hstep.at
        exact (hneeds.not_at hsub hleft hat).elim
    subst hsame
    have hkeep := EntryResult.keeps [] h hlinks hresult hcall (.refl fs)
      (by rw [List.append_nil]; exact h.at_nil) (Ne.symm hne) fun _ hstays => ?_
    · rw [List.nil_append] at hkeep
      rw [← hkeep] at hy
      exact hylink ((hclears.link_left hy).sub hsub)
    · rcases hstays with hnot | ⟨hx, -⟩
      · exact hnot ⟨[x], List.cons_ne_nil _ _, rfl⟩
      · exact hlink hx
  · have hstuck := first_turn h hlinks hway hthere hlink horder hresult hleft
    have hstuck' := hstuck.steps (fun _ _ _ hat => h.le (hat.mono hsub)) hsteps
    exact hlink ((hclears.link_left hstuck'.there).sub (hsteps.sub.trans hsub))

theorem AlwaysClears.wayOpen (hall : AlwaysClears cwd path fs d) (h : Names cwd path fs d k) :
    WayOpen cwd path fs d k := by
  rcases way_or_needs h fun q => Stays fs d k q ∨ ∃ x, q = d ++ [x] ∧ OnlyEntry fs d x with
    hway | ⟨q, hq, hthere, hneeds⟩
  · exact hway
  exfalso
  have hbeneath : Beneath d q := by
    by_contra hb
    exact hq (.inl (.inl hb))
  obtain ⟨r, hr, rfl⟩ := hbeneath
  obtain ⟨x, t, rfl⟩ := List.exists_cons_of_ne_nil hr
  rw [← List.singleton_append, ← List.append_assoc] at hq hthere hneeds
  obtain rfl := hall.needs_shallow h hneeds hthere
  rw [List.append_nil] at hq hthere hneeds
  by_cases hlink : IsLink fs (d ++ [x])
  · exact hq (.inl (Needs.stays h hneeds hlink))
  · exact hq (.inr ⟨x, rfl, hall.onlyEntry h hneeds hthere hlink⟩)

end Converse
end Clearing
end AdvancedCProjects.Bibak
