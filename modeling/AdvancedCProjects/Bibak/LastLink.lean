import AdvancedCProjects.Bibak.Orders

/-!
# The link that is read last

Where every directory on the way to a link reads the next name last, the link has to do
with what cannot be taken away.
-/

namespace AdvancedCProjects.Bibak
open Base

namespace Clearing

section Converse
variable {fs fs' fs₀ : LinkedSystem} {cwd d p q : List FileName} {path : Path}
  {k l : ℕ} {early middle : Path → Name → Bool}

section Last
variable {sub : Path → LinkedSystem → Option LinkedSystem} {entries : List Name}
  {done todo : List FileName} {m : FileName} (h : Names cwd path fs₀ d k)
  (hlinks : LinksToFiles fs₀ d k)
include h hlinks

/-- A name that is read before `m`. -/
def Others (fs : LinkedSystem) (d : List FileName) (k : ℕ) (done : List FileName) (m : FileName)
    (entry : Name) : Prop :=
  entry ≠ m.val ∧ (done = [] → ∀ o : FileName, entry = o.val → ¬ Stays fs d k (d ++ [o]))

theorem clearEntries_keeps (hpath : path ≠ [])
    (hcalls : StepsBelow cwd path sub done)
    (hbase : ∀ fs, Steps cwd path [] fs₀ fs → fs.node (d ++ (done ++ m :: todo)) ≠ none →
      At cwd path fs done (d ++ done) k)
    (hentries : ∀ entry ∈ entries, EntryOk path done entry)
    (hothers : ∀ entry ∈ entries, Others fs₀ d k done m entry)
    (hreach : Steps cwd path [] fs₀ fs)
    (hthere : fs.node (d ++ (done ++ m :: todo)) ≠ none)
    (hrun : clearEntries cwd sub (path ++ relativePath done) entries fs = some fs') :
    fs'.node (d ++ (done ++ m :: todo)) ≠ none := by
  induction entries generalizing fs with
  | nil =>
    cases hrun
    exact hthere
  | cons entry entries ih =>
    have hentry := hentries entry List.mem_cons_self
    have hrestOk : ∀ e ∈ entries, EntryOk path done e :=
      fun e he => hentries e (List.mem_cons_of_mem _ he)
    have hrestOthers : ∀ e ∈ entries, Others fs₀ d k done m e :=
      fun e he => hothers e (List.mem_cons_of_mem _ he)
    rcases hentry.dots_or_name with hdots | ⟨o, rfl⟩
    · rw [clearEntries_dots hpath hentry hdots] at hrun
      exact ih hrestOk hrestOthers hreach hthere hrun
    · obtain ⟨hne, hstay⟩ := hothers o.val List.mem_cons_self
      have hsub := Steps.sub hreach
      have hfit : PathsFit cwd path fs := h.fits.sub hsub
      obtain ⟨fs₁, hresult, hlast⟩ := clearEntries_next hpath hentry hrun
      have hcall := fun fs' => hcalls o fs fs' hfit
      have hsteps := hresult.steps hpath hcall
      have hkeep := EntryResult.keeps todo h hlinks hresult hcall hsub
        (hbase fs hreach hthere) (fun he => hne (congrArg Subtype.val he))
        fun hnil => hstay hnil o rfl
      apply ih hrestOk hrestOthers (hreach.trans hsteps.anywhere) _ hlast
      rwa [hkeep]

/-- On the way down `w`, above `done`, what is there beside the next name is stuck, or it
is a link that stays. -/
def Alone (fs₀ fs : LinkedSystem) (d : List FileName) (k : ℕ) (w done : List FileName) : Prop :=
  ∀ done' m todo, w = done' ++ m :: todo → done'.length < done.length → ∀ o ≠ m,
    fs.node (d ++ done' ++ [o]) ≠ none →
      Stuck fs k (d ++ done' ++ [o]) ∨ done' = [] ∧ Stays fs₀ d k (d ++ [o])

omit h hlinks in
/-- As long as something below a directory in `d` is there, the path leads to where it lies. -/
theorem at_way (hopen : StaysOpen cwd path fs₀ d k []) (hlong : 2 ≤ (done ++ m :: todo).length)
    (hsteps : Steps cwd path [] fs₀ fs) (hthere : fs.node (d ++ (done ++ m :: todo)) ≠ none) :
    At cwd path fs done (d ++ done) k := by
  rw [List.append_cons, ← List.append_assoc, ← List.append_assoc] at hthere
  apply hopen fs done m hsteps List.nil_prefix _ (fs.node_front hthere)
  rintro rfl hlink
  rw [List.append_nil] at hthere
  obtain rfl := hlink.leaf ((Steps.sub hsteps).there hthere)
  exact absurd hlong (by simp)

omit hlinks in
/-- When the others have had their turn, what is left of them is stuck, or it stays. -/
theorem stuck_beside (hopen : StaysOpen cwd path fs₀ d k [])
    (hlong : 2 ≤ (done ++ m :: todo).length)
    (hearly : ∀ e, early (path ++ relativePath done) e = true ↔ Others fs₀ d k done m e)
    {fuel : ℕ} {listed : List Name}
    (hbefore : ∀ e ∈ listed.filter (early (path ++ relativePath done)), EntryOk path done e)
    (hlisted : ∀ o : FileName, fs.node (d ++ done ++ [o]) ≠ none → o.val ∈ listed)
    (hreach : Steps cwd path [] fs₀ fs)
    (hrun : clearEntries cwd (clearDirectory (readOrder cwd early middle) cwd fuel)
      (path ++ relativePath done) (listed.filter (early (path ++ relativePath done))) fs = some fs')
    (hkept : fs'.node (d ++ (done ++ m :: todo)) ≠ none) {o : FileName} (hne : o ≠ m)
    (hthere : fs'.node (d ++ done ++ [o]) ≠ none) :
    Stuck fs' k (d ++ done ++ [o]) ∨ done = [] ∧ Stays fs₀ d k (d ++ [o]) := by
  have horder := readOrder_ok cwd early middle
  have hcalls := clearDirectory_below horder h.nonempty fuel done
  have hsteps := clearEntries_steps h.nonempty hcalls hbefore (h.fits.sub (Steps.sub hreach)) hrun
  by_cases he : early (path ++ relativePath done) o.val = true
  · have hturn := List.mem_filter.mpr ⟨hlisted o (hsteps.sub.there hthere), he⟩
    refine .inl (clearEntries_stuck h List.nil_prefix
      (fun fs hreach hsub => at_way hopen hlong hreach (hsub.there hkept)) hbefore hcalls ?_ hreach
      hrun hturn hthere)
    intro n fs fs' hreach' hcleared j hj
    rw [List.append_assoc d] at hj ⊢
    exact clearDirectory_stuck h hopen horder List.nil_prefix hreach' hcleared (by simp) hj
  · -- only what stays comes later
    apply Or.inr
    by_contra hno
    refine he ((hearly o.val).mpr ⟨fun heq => hne (Subtype.ext heq), fun hnil o' ho' => ?_⟩)
    obtain rfl := Subtype.ext ho'
    exact fun hstays => hno ⟨hnil, hstays⟩

theorem last_level (hopen : StaysOpen cwd path fs₀ d k []) {w : List FileName}
    (hlong : 2 ≤ w.length)
    (hearly : ∀ e, early (path ++ relativePath done) e = true ↔ Others fs₀ d k done m e)
    (hmiddle : ∀ e, middle (path ++ relativePath done) e = true ↔ e = m.val)
    {fuel : ℕ} (hw : w = done ++ m :: todo) (hreach : Steps cwd path [] fs₀ fs)
    (hthere : fs.node (d ++ w) ≠ none) (halone : Alone fs₀ fs d k w done)
    (hrun : clearDirectory (readOrder cwd early middle) cwd fuel (path ++ relativePath done) fs =
      some fs') : ∃ fuel' rest fs₁,
        clearEntries cwd (clearDirectory (readOrder cwd early middle) cwd fuel')
          (path ++ relativePath done) (m.val :: rest) fs₁ = some fs' ∧
        (∀ entry ∈ m.val :: rest, EntryOk path done entry) ∧ Steps cwd path [] fs fs₁ ∧
        fs₁.node (d ++ w) ≠ none ∧ Alone fs₀ fs₁ d k w (done ++ [m]) := by
  have horder := readOrder_ok cwd early middle
  cases fuel with
  | zero => contradiction
  | succ fuel =>
    subst hw
    have hbase (fs : LinkedSystem) (hsteps : Steps cwd path [] fs₀ fs)
        (hway : fs.node (d ++ (done ++ m :: todo)) ≠ none) : At cwd path fs done (d ++ done) k :=
      at_way hopen hlong hsteps hway
    have hchild : fs.node (d ++ done ++ [m]) ≠ none := by
      apply fs.node_front (r := todo)
      rwa [List.append_cons, ← List.append_assoc, ← List.append_assoc] at hthere
    have hdir : fs.node (d ++ done) = some .dir := fs.above hchild (List.cons_ne_nil _ _)
    have hat := hbase fs hreach hthere
    have hfit : PathsFit cwd path fs := h.fits.sub (Steps.sub hreach)
    have hentries := order_entries horder h.nonempty hfit hat hdir
    rw [clearDirectory_eq h.nonempty hat hdir] at hrun
    rw [readOrder_eq h.nonempty hat] at hrun hentries
    have hlisted (o : FileName) (ho : fs.node (d ++ done ++ [o]) ≠ none) :
        o.val ∈ [dot] :: [dot, dot] :: (fs.children (d ++ done)).map Subtype.val := by
      simp only [List.mem_cons, List.mem_map]
      exact .inr (.inr ⟨o, fs.mem_children.mpr ho, rfl⟩)
    have hm : early (path ++ relativePath done) m.val = false := by
      rw [Bool.eq_false_iff]
      intro he
      exact ((hearly m.val).mp he).1 rfl
    obtain ⟨rest, hrest⟩ := arranged_then (hlisted m hchild) hm hmiddle
    rw [hrest] at hrun hentries
    generalize [dot] :: [dot, dot] :: (fs.children (d ++ done)).map Subtype.val = listed
      at hrun hentries hlisted
    have hbefore : ∀ e ∈ listed.filter (early (path ++ relativePath done)), EntryOk path done e :=
      fun e he => hentries e (List.mem_append_left _ he)
    rw [clearEntries_append h.nonempty hbefore] at hrun
    obtain ⟨fs₁, hfs₁, hlast⟩ := Option.bind_eq_some_iff.mp hrun
    have hcalls := clearDirectory_below horder h.nonempty fuel done
    have hsteps := clearEntries_steps h.nonempty hcalls hbefore hfit hfs₁
    have hkept : fs₁.node (d ++ (done ++ m :: todo)) ≠ none := by
      refine clearEntries_keeps h hlinks h.nonempty hcalls hbase hbefore (fun e he => ?_) hreach
        hthere hfs₁
      exact (hearly e).mp (List.mem_filter.mp he).2
    refine ⟨fuel, rest, fs₁, hlast, fun e he => hentries e (List.mem_append_right _ he),
      hsteps.anywhere, hkept, ?_⟩
    intro done' m₁ todo₁ hw' hlen o hne hnode
    rcases Nat.lt_or_ge done'.length done.length with hlt | hge
    · refine (halone done' m₁ todo₁ hw' hlt o hne (hsteps.sub.there hnode)).imp_left fun hstuck => ?_
      exact hstuck.steps (fun _ _ _ hat => h.le (hat.mono (Steps.sub hreach))) hsteps
    · rw [List.length_append, List.length_singleton] at hlen
      obtain ⟨rfl, hcons⟩ := List.append_inj hw' (by omega)
      obtain ⟨rfl, -⟩ := List.cons.inj hcons
      exact stuck_beside h hopen hlong hearly hbefore hlisted hreach hfs₁ hkept hne hnode

/-- When every directory on the way reads the next name after the others, nothing that
does not stay is left beside the way. -/
theorem last_alone (hopen : StaysOpen cwd path fs₀ d k []) {w : List FileName}
    (hlong : 2 ≤ w.length)
    (hearly : ∀ done m todo, w = done ++ m :: todo → ∀ e,
      early (path ++ relativePath done) e = true ↔ Others fs₀ d k done m e)
    (hmiddle : ∀ done m todo, w = done ++ m :: todo → ∀ e,
      middle (path ++ relativePath done) e = true ↔ e = m.val)
    {fuel : ℕ} (hw : w = done ++ m :: todo) (hreach : Steps cwd path [] fs₀ fs)
    (hthere : fs.node (d ++ w) ≠ none) (halone : Alone fs₀ fs d k w done)
    (hrun : clearDirectory (readOrder cwd early middle) cwd fuel (path ++ relativePath done) fs =
      some fs') : ∃ fs₁, Steps cwd path [] fs₀ fs₁ ∧ Steps cwd path [] fs₁ fs' ∧
        fs₁.node (d ++ w) ≠ none ∧ Alone fs₀ fs₁ d k w w := by
  have horder := readOrder_ok cwd early middle
  induction todo generalizing done m fuel fs fs' with
  | nil =>
    obtain ⟨fuel', rest, fs₁, hlast, hentries, hsteps, hthere₁, halone₁⟩ :=
      last_level h hlinks hopen hlong (hearly _ _ _ hw) (hmiddle _ _ _ hw) hw hreach hthere halone
        hrun
    have hreach₁ := hreach.trans hsteps
    have hrest := clearEntries_steps h.nonempty
      (clearDirectory_below horder h.nonempty fuel' done) hentries
      (h.fits.sub (Steps.sub hreach₁)) hlast
    rw [← hw] at halone₁
    exact ⟨fs₁, hreach₁, hrest.anywhere, hthere₁, halone₁⟩
  | cons m' todo ih =>
    obtain ⟨fuel', rest, fs₁, hlast, hentries, hsteps, hthere₁, halone₁⟩ :=
      last_level h hlinks hopen hlong (hearly _ _ _ hw) (hmiddle _ _ _ hw) hw hreach hthere halone
        hrun
    have hreach₁ := hreach.trans hsteps
    have hfit₁ : PathsFit cwd path fs₁ := h.fits.sub (Steps.sub hreach₁)
    have hreal : fs₁.node (d ++ done ++ [m]) = some .dir := by
      apply fs₁.above (r := m' :: todo) _ (List.cons_ne_nil _ _)
      rwa [hw, List.append_cons, ← List.append_assoc, ← List.append_assoc] at hthere₁
    have hat : At cwd path fs₁ done (d ++ done) k := by
      rw [hw] at hlong hthere₁
      exact at_way hopen hlong hreach₁ hthere₁
    have hnext := at_append.mpr ⟨_, _, hat, Enters.dir hreal⟩
    obtain ⟨fs₂, hresult, hlast⟩ := clearEntries_next h.nonempty
      (hentries m.val List.mem_cons_self) hlast
    generalize hsome : some fs₂ = result at hresult
    cases hresult with
    | dir =>
      obtain ⟨fs₃, hfs₃, rfl⟩ := Option.map_eq_some_iff.mp hsome.symm
      obtain ⟨fs₄, hreach₄, hsteps₄, hthere₄, halone₄⟩ :=
        ih (by rw [hw, List.append_cons]) hreach₁ hthere₁ halone₁ hfs₃
      have hrmdir := (rmdir_steps cwd h.nonempty fs₃ done m).anywhere
      have hreach₂ := (hreach₄.trans hsteps₄).trans hrmdir
      have hrest := clearEntries_steps h.nonempty
        (clearDirectory_below horder h.nonempty fuel' done)
        (fun e he => hentries e (List.mem_cons_of_mem _ he))
        (h.fits.sub (Steps.sub hreach₂)) hlast
      exact ⟨fs₄, hreach₄, (hsteps₄.trans hrmdir).trans hrest.anywhere, hthere₄, halone₄⟩
    | file hat' hn hregular =>
      obtain ⟨rfl, -⟩ := (at_append.mpr ⟨_, _, hat', hn⟩ : At cwd path fs₁ _ _ _).unique hnext
      exact (hregular.not_dir hreal).elim
    | skipped hnone => exact ((hnone _ _ hnext).1 hreal).elim

end Last

/-- What is there when the link is read stays or lies on its way, or it is a link in `d` that
leads to nothing. -/
theorem Alone.cases {w : List FileName} (hlink : IsLink fs (d ++ w))
    (halone : Alone fs₀ fs d k w w) (hsub : Sub fs fs₀)
    (hfree : ∀ r n, r ≠ [] → ¬ Stuck fs k (d ++ r ++ [n])) (hq : fs.node q ≠ none) :
    (Stays fs₀ d k q ∨ q <+: d ++ w) ∨
      ∃ o, q = d ++ [o] ∧ IsLink fs q ∧ ∀ q' l, ¬ Enters fs d k o q' l := by
  by_cases hb : Beneath d q
  case neg => exact .inl (.inl (.inl hb))
  obtain ⟨t, -, rfl⟩ := hb
  by_cases hbefore : t <+: w
  case pos => exact .inl (.inr ((List.prefix_append_right_inj d).mpr hbefore))
  by_cases hbehind : w <+: t
  case pos =>
    obtain ⟨u, rfl⟩ := hbehind
    rw [← List.append_assoc] at hq
    rw [hlink.leaf hq, List.append_nil] at hbefore
    exact (hbefore List.prefix_rfl).elim
  obtain ⟨front, x, y, t', w', rfl, hw, hne⟩ := parting hbefore hbehind
  have hthere : fs.node (d ++ front ++ [x]) ≠ none := by
    apply fs.node_front (r := t')
    rwa [List.append_cons, ← List.append_assoc, ← List.append_assoc] at hq
  have hlen : front.length < w.length := by
    rw [hw, List.length_append, List.length_cons]
    omega
  rcases halone front y w' hw hlen x hne hthere with hstuck | ⟨rfl, hstays⟩
  · by_cases hnil : front = []
    case neg => exact (hfree front x hnil hstuck).elim
    subst hnil
    rw [List.append_nil] at hstuck
    rw [List.nil_append, ← List.singleton_append, ← List.append_assoc] at hq ⊢
    generalize hplace : d ++ [x] = place at hstuck hq ⊢
    cases hstuck with
    | dir _ hbelow =>
      subst hplace
      exact (hfree [x] _ (List.cons_ne_nil _ _) hbelow).elim
    | @link p n hplink hno =>
      obtain ⟨rfl, rfl⟩ := List.append_singleton_inj.mp hplace
      rw [hplink.leaf hq, List.append_nil]
      by_cases hstays : Stays fs₀ d k (d ++ [x])
      case pos => exact .inl (.inl hstays)
      refine .inr ⟨x, rfl, hplink, fun q' l hn => ?_⟩
      obtain ⟨z, hz, hnolink⟩ := Nodes.Leads.there fs.node_root hn ⟨.dir, hn.cases.1, rfl⟩
      rcases link_or_real (fs.there hz) with hlast | hdir | hregular
      · rw [hlast.isLink hz] at hnolink
        contradiction
      · exact hstays (.of_dir (hplink.sub hsub) (hn.mono hsub) (hsub _ _ hdir))
      · exact hno q' l hn hregular
  · rw [List.nil_append, ← List.singleton_append, ← List.append_assoc] at hq ⊢
    rcases hstays with hnot | ⟨hl, hrest⟩
    · exact (hnot ⟨[x], List.cons_ne_nil _ _, rfl⟩).elim
    · have hx : IsLink fs (d ++ [x]) := IsLink.kept hl hsub (fs.node_front hq)
      rw [hx.leaf hq, List.append_nil]
      exact .inl (.inl (.inr ⟨hl, hrest⟩))

theorem leads_alone {w : List FileName} (hsub : Sub fs fs₀)
    (hcases : ∀ q, fs.node q ≠ none → (Stays fs₀ d k q ∨ q <+: d ++ w) ∨
      ∃ o, q = d ++ [o] ∧ IsLink fs q ∧ ∀ q' l, ¬ Enters fs d k o q' l)
    {comps : List (Component FileName)} {j : ℕ} (hj : j ≤ k)
    (hleads : Nodes.Leads fs.node p j comps q l) :
    Nodes.Leads (only fs₀ fun s => Stays fs₀ d k s ∨ s <+: d ++ w) p j comps q l := by
  have real {s : List FileName} {x : Node (Leaf FileName Bytes)} (hx : fs.node s = some x)
      (hno : x.isLink = false) :
      only fs₀ (fun s => Stays fs₀ d k s ∨ s <+: d ++ w) s = some x := by
    rcases hcases s (fs.there hx) with hkeep | ⟨-, -, hl, -⟩
    · exact only_some hkeep (hsub s x hx)
    · rw [hl.isLink hx] at hno
      contradiction
  induction hleads with
  | done => exact .done
  | next hdir hx hno _ ih => exact .next (real hdir rfl) (real hx hno) hno (ih hj)
  | @link p q j l c comps target absolute hdir hlink hrest ih =>
    rcases hcases (c.next p) (fs.there hlink) with hkeep | ⟨o, ho, hl, hno⟩
    · exact .link (real hdir rfl) (only_some hkeep (hsub _ _ hlink)) (ih (by omega))
    · -- a link that leads to nothing is on no way
      cases c with
      | here => exact (hl.not_dir hdir).elim
      | up => exact (hl.not_dir (fs.node_dropLast (fs.there hdir))).elim
      | down m =>
        obtain ⟨rfl, rfl⟩ := List.append_singleton_inj.mp ho
        have hwhole : Nodes.Leads fs.node p (j + 1) ([.down m] ++ comps) q l :=
          .link hdir hlink hrest
        obtain ⟨q', l', hn, -⟩ := hwhole.split
        obtain ⟨i, hi⟩ := Enters.more hn hj
        exact (hno q' i hi).elim

theorem AlwaysClears.linksOnTheirOwn (hall : AlwaysClears cwd path fs d)
    (h : Names cwd path fs d k) : LinksOnTheirOwn fs d k := by
  classical
  intro r n hr hlink
  have hlinks := hall.linksToFiles h
  have hopen := (hall.wayOpen h).staysOpen h hlinks (hall.nothingOutside h)
  have hlong : 2 ≤ (r ++ [n]).length := by
    have hlen := List.length_pos_of_ne_nil hr
    rw [List.length_append, List.length_singleton]
    omega
  obtain ⟨fuel, fs', hrun, -, hclears⟩ := hall.run h
    (fun directory e => decide (OnWay path (r ++ [n])
      (fun done m => Others fs d k done m e) directory))
    fun directory e => decide (OnWay path (r ++ [n]) (fun _ m => e = m.val) directory)
  obtain ⟨m, todo, hw⟩ : ∃ m todo, r ++ [n] = [] ++ m :: todo := by
    cases r with
    | nil => contradiction
    | cons m r => exact ⟨m, r ++ [n], rfl⟩
  have hthere : fs.node (d ++ (r ++ [n])) ≠ none := by
    rw [← List.append_assoc]
    exact hlink.there
  obtain ⟨fs₁, hreach₁, hsteps₁, hthere₁, halone₁⟩ := last_alone h hlinks hopen hlong
    (fun done m todo hw e => decide_eq_true_iff.trans (onWay_iff hw _))
    (fun done m todo hw e => decide_eq_true_iff.trans (onWay_iff hw _)) hw .refl hthere
    (fun _ _ _ _ hlen => absurd hlen (Nat.not_lt_zero _)) hrun
  have hsub := Steps.sub hreach₁
  have hfree : ∀ r n, r ≠ [] → ¬ Stuck fs₁ k (d ++ r ++ [n]) := fun r n hr hstuck =>
    hclears.not_stuck hr (hstuck.steps (fun _ _ _ hat => h.le (hat.mono hsub)) hsteps₁)
  rw [← List.append_assoc] at hthere₁
  have hlink₁ := IsLink.kept hlink hsub hthere₁
  by_cases hregular : ∃ q l, Enters fs₁ (d ++ r) k n q l ∧ Regular fs₁ q
  · obtain ⟨q, l, hn, hregular⟩ := hregular
    refine ⟨q, l, ?_, hregular.sub hsub⟩
    rw [List.append_assoc] at hlink₁ ⊢
    exact leads_alone hsub (fun q hq => halone₁.cases hlink₁ hsub hfree hq) le_rfl hn
  · exact (hfree r n hr (.link hlink₁ fun q l hn hq => hregular ⟨q, l, hn, hq⟩)).elim

theorem LinksOnTheirOwn.linksToFiles (h : LinksOnTheirOwn fs d k) : LinksToFiles fs d k := by
  intro r n hr hlink
  obtain ⟨q, l, hleads, hregular⟩ := h r n hr hlink
  exact ⟨q, l, hleads.mono fun s x hx => (only_sub hx).2, hregular⟩

/-- Whatever the order of reading, the directory is cleared and nothing else, if and only if
the path does not need what may be gone too early, no link leads the recursion to something
outside that it could take away, and no link beneath the directory needs what may be gone
before it. -/
theorem clearDirectory_clears_iff (h : Names cwd path fs d k) :
    AlwaysClears cwd path fs d ↔
      WayOpen cwd path fs d k ∧ NothingOutside cwd path fs d ∧ LinksOnTheirOwn fs d k := by
  constructor
  · intro hall
    exact ⟨hall.wayOpen h, hall.nothingOutside h, hall.linksOnTheirOwn h⟩
  · rintro ⟨hopen, hout, hown⟩ order horder fuel hfuel
    obtain ⟨fs', hrun⟩ := h.ends horder hfuel
    exact ⟨fs', hrun, clearDirectory_clears h hown.linksToFiles hout hopen hown horder hrun⟩

end Converse

/-! ### A link in the directory -/

def nameT : FileName := ⟨utf8 "t", by decide⟩

/-- A directory `s` with the link `a` to the directory `t`, which is empty. -/
def linked : LinkedSystem :=
  ((Disk.blank.put [nameS] .dir (by decide) (by decide)).put [nameT] .dir (by decide)
    (by decide)).put [nameS, nameA] (.file (.link true [.down nameT])) (by decide) (by decide)

def linkedFile : LinkedSystem :=
  linked.put [nameT, nameA] (.file (.regular [1])) (by decide) (by decide)

theorem node_linkedFile (q : List FileName) : linkedFile.node q =
    if q = [nameT, nameA] then some (.file (.regular [1]))
    else if q = [nameS, nameA] then some (.file (.link true [.down nameT]))
    else if q = [nameT] then some .dir else if q = [nameS] then some .dir
    else if q = [] then some .dir else none := by
  simp only [linkedFile, linked, Disk.node_put, Disk.node_blank]

theorem dir_linkedFile {q : List FileName} (h : linkedFile.node q = some .dir) :
    q.length < 2 := by
  rw [node_linkedFile] at h
  grind

theorem link_linkedFile {q : List FileName} (h : IsLink linkedFile q) : q = [nameS, nameA] := by
  obtain ⟨absolute, target, h⟩ := h
  rw [node_linkedFile] at h
  grind

theorem linked_sub : Sub linked linkedFile := by
  intro q x hx
  rw [linkedFile, Disk.node_put, if_neg, hx]
  rintro rfl
  rw [show linked.node [nameT, nameA] = none by decide] at hx
  contradiction

theorem start_linkedFile : At [] (utf8 "s") linkedFile [] [nameS] maxLinks :=
  .next (by decide) (show linkedFile.node [nameS] = some .dir by decide) rfl .done

theorem at_linkedFile {names p : List FileName} {k : ℕ}
    (hat : At [] (utf8 "s") linkedFile names p k) (hp : linkedFile.node p = some .dir) :
    names = [] ∧ p = [nameS] ∨ names = [nameA] ∧ p = [nameT] := by
  induction names using List.reverseRecOn generalizing p k with
  | nil =>
    obtain ⟨rfl, -⟩ := hat.unique start_linkedFile
    exact .inl ⟨rfl, rfl⟩
  | append_singleton names n ih =>
    obtain ⟨p', k', hat', hn⟩ := at_append.mp hat
    obtain ⟨hp', hcases⟩ := hn.cases
    rcases ih hat' hp' with ⟨rfl, rfl⟩ | ⟨rfl, rfl⟩
    · apply Or.inr
      rcases hcases with ⟨rfl, -, -⟩ | ⟨hlt, absolute, target, hlink⟩
      · exact absurd (dir_linkedFile hp) (Nat.lt_irrefl 2)
      · obtain rfl : n = nameA := by simpa using link_linkedFile ⟨absolute, target, hlink⟩
        obtain ⟨j, rfl⟩ : ∃ j, k' = j + 1 := ⟨k' - 1, by omega⟩
        have hentry : Enters linkedFile [nameS] (j + 1) nameA [nameT] j :=
          .link (by decide) (show linkedFile.node _ = some (.file (.link true [.down nameT])) by
            decide) (.next (by decide) (show linkedFile.node _ = some .dir by decide) rfl .done)
        exact ⟨rfl, (hn.unique hentry).1⟩
    · rcases hcases with ⟨rfl, -, -⟩ | ⟨-, absolute, target, hlink⟩
      · exact absurd (dir_linkedFile hp) (Nat.lt_irrefl 2)
      · have heq := link_linkedFile ⟨absolute, target, hlink⟩
        exact absurd (List.cons.inj heq).1 (by decide)

theorem pathsFit_linkedFile : PathsFit [] (utf8 "s") linkedFile := by
  intro names p k hat hp
  rcases at_linkedFile hat hp with ⟨rfl, rfl⟩ | ⟨rfl, rfl⟩ <;> decide

theorem names_linked {fs : LinkedSystem} (hsub : Sub fs linkedFile)
    (hdir : fs.node [nameS] = some .dir) : Names [] (utf8 "s") fs [nameS] maxLinks where
  nonempty := by decide
  dir := hdir
  leads := .next fs.node_root hdir rfl .done
  fits := pathsFit_linkedFile.sub hsub

theorem wayOpen_linked : WayOpen [] (utf8 "s") linked [nameS] maxLinks := by
  have outside (q : List FileName) (hq : q.length ≤ 1) : Stays linked [nameS] maxLinks q := by
    refine .inl ?_
    rintro ⟨r, hr, rfl⟩
    rw [List.length_append, List.length_singleton] at hq
    exact hr (List.length_eq_zero_iff.mp (by omega))
  have hdir : linked.node [nameS] = some .dir := by decide
  exact .next (only_some (.inl (outside [] (by decide))) linked.node_root)
    (only_some (.inl (outside [nameS] (by decide))) hdir) rfl .done

theorem nothingOutside_linked : NothingOutside [] (utf8 "s") linked [nameS] := by
  intro names p l hat hne hnot n
  have none_in_t (m : FileName) : linked.node [nameT, m] = none := by
    by_contra hm
    have hmem := linked.mem_children.mpr (show linked.node ([nameT] ++ [m]) ≠ none from hm)
    rw [show linked.children [nameT] = [] by decide] at hmem
    contradiction
  have hthere (hp : linked.node p = some .dir) : linked.node (p ++ [n]) = none := by
    rcases at_linkedFile (hat.mono linked_sub) (linked_sub p _ hp) with ⟨-, rfl⟩ | ⟨-, rfl⟩
    · exact (hne rfl).elim
    · exact none_in_t n
  constructor
  · intro q j hn hregular
    exact hn.entry (hthere hn.cases.1)
  · intro hdir
    have hp := linked.above (r := [n]) (linked.there hdir) (List.cons_ne_nil _ _)
    rw [hthere hp] at hdir
    contradiction

theorem linksOnTheirOwn_linked : LinksOnTheirOwn linked [nameS] maxLinks := by
  intro r n hr hlink
  have hlen := congrArg List.length (link_linkedFile (hlink.sub linked_sub))
  simp only [List.length_append, List.length_cons, List.length_nil] at hlen
  exact (hr (List.length_eq_zero_iff.mp (by omega))).elim

/-- A link out of the directory does no harm where there is nothing to take away. -/
theorem linked_cleared : AlwaysClears [] (utf8 "s") linked [nameS] :=
  (clearDirectory_clears_iff (names_linked linked_sub (by decide))).mpr
    ⟨wayOpen_linked, nothingOutside_linked, linksOnTheirOwn_linked⟩

/-- Else the file that lies outside is gone. -/
theorem linkedFile_not_cleared : Names [] (utf8 "s") linkedFile [nameS] maxLinks ∧
    ¬ AlwaysClears [] (utf8 "s") linkedFile [nameS] := by
  refine ⟨names_linked (.refl _) (by decide), fun hall => ?_⟩
  have hdeep : Deep linkedFile 124 := by
    unfold Deep
    decide
  obtain ⟨fs', hrun, hclears⟩ :=
    hall _ (readOrder_ok [] (fun _ _ => true) fun _ _ => true) 124 hdeep
  have hgone : (clearDirectory (readOrder [] (fun _ _ => true) fun _ _ => true) [] 124 (utf8 "s")
      linkedFile).map (fun fs => fs.node [nameT, nameA]) = some none := by decide +kernel
  have hkept := hclears.outside [nameT, nameA] (by rintro ⟨r, -, heq⟩; cases heq)
  rw [hrun, Option.map_some, hkept] at hgone
  contradiction

end Clearing
end AdvancedCProjects.Bibak
