import AdvancedCProjects.Bibak.Clear

/-!
# What clearing leaves behind

A link that `stat` follows to a directory leads the recursion out of the directory,
and one that leads to no regular file keeps the directory it lies in.
-/

namespace AdvancedCProjects.Bibak
open Base

namespace Clearing

def Beneath (d q : List FileName) : Prop := ∃ r ≠ [], q = d ++ r

/-- The file system with nothing but what is in `kept`. -/
noncomputable def only (fs : LinkedSystem) (kept : List FileName → Prop) : Nodes FileName Bytes :=
  open Classical in fun q => if kept q then fs.node q else none

def IsLink (fs : LinkedSystem) (q : List FileName) : Prop :=
  ∃ absolute target, fs.node q = some (.file (.link absolute target))

/-- What no clearing of `d` should take away: all that does not lie beneath `d`, and the
links in `d` that lead to no regular file. -/
def Stays (fs : LinkedSystem) (d : List FileName) (k : ℕ) (q : List FileName) : Prop :=
  ¬ Beneath d q ∨ IsLink fs q ∧
    ∃ n, q = d ++ [n] ∧ ∀ p l, Enters fs d k n p l → ¬ Regular fs p

/-- `path` names the directory `d`, and the paths below it fit the buffer. -/
structure Names (cwd : List FileName) (path : Path) (fs : LinkedSystem) (d : List FileName)
    (k : ℕ) : Prop where
  nonempty : path ≠ []
  dir : fs.node d = some .dir
  leads : Nodes.Leads fs.node (pathStart cwd path) maxLinks (components path) d k
  fits : PathsFit cwd path fs

/-- What is there in `d` beside `x` are links. -/
def OnlyEntry (fs : LinkedSystem) (d : List FileName) (x : FileName) : Prop :=
  ∀ n, fs.node (d ++ [n]) ≠ none → ¬ IsLink fs (d ++ [n]) → n = x

/-- The path leads to `d` without what lies beneath `d`, but for what stays and for an entry
that is the only one in `d`. -/
def WayOpen (cwd : List FileName) (path : Path) (fs : LinkedSystem) (d : List FileName) (k : ℕ) :
    Prop :=
  Nodes.Leads (only fs fun q => Stays fs d k q ∨ ∃ x, q = d ++ [x] ∧ OnlyEntry fs d x)
    (pathStart cwd path) maxLinks (components path) d k

/-- The recursion meets nothing outside of `d` that it could take away. -/
def NothingOutside (cwd : List FileName) (path : Path) (fs : LinkedSystem) (d : List FileName) :
    Prop :=
  ∀ names p l, At cwd path fs names p l → p ≠ d → ¬ Beneath d p → ∀ n,
    (∀ q j, Enters fs p l n q j → ¬ Regular fs q) ∧
    (fs.node (p ++ [n]) = some .dir → p ++ [n] ≠ d → fs.children (p ++ [n]) ≠ [])

/-- The links in the directories beneath `d` lead to regular files. -/
def LinksToFiles (fs : LinkedSystem) (d : List FileName) (k : ℕ) : Prop :=
  ∀ r n, r ≠ [] → IsLink fs (d ++ r ++ [n]) → ∃ q l, Enters fs (d ++ r) k n q l ∧ Regular fs q

/-- They do so without the rest of what lies beneath `d`. -/
def LinksOnTheirOwn (fs : LinkedSystem) (d : List FileName) (k : ℕ) : Prop :=
  ∀ r n, r ≠ [] → IsLink fs (d ++ r ++ [n]) →
    ∃ q l, Nodes.Leads (only fs fun s => Stays fs d k s ∨ s <+: d ++ r ++ [n]) (d ++ r) k
      [.down n] q l ∧ Regular fs q

/-- Nothing has changed outside of `d`, and no file and no directory is left beneath it. -/
structure Clears (d : List FileName) (fs fs' : LinkedSystem) : Prop where
  outside : ∀ q, ¬ Beneath d q → fs'.node q = fs.node q
  beneath : ∀ q, Beneath d q → fs'.node q ≠ some .dir ∧ ¬ Regular fs' q

section Setting
variable {fs fs' fs₀ : LinkedSystem} {cwd d p q r : List FileName} {path : Path} {n : FileName}
  {names front : List FileName} {k l : ℕ} {keep : List FileName → Prop}

theorem only_sub {q : List FileName} {x : Node (Leaf FileName Bytes)}
    (h : only fs keep q = some x) : keep q ∧ fs.node q = some x := by
  unfold only at h
  split at h
  · next hkept => exact ⟨hkept, h⟩
  · contradiction

theorem only_some {q : List FileName} {x : Node (Leaf FileName Bytes)} (hkeep : keep q)
    (hx : fs.node q = some x) : only fs keep q = some x := by
  unfold only
  rw [if_pos hkeep, hx]

theorem Beneath.snoc (h : p = d ∨ Beneath d p) (n : FileName) : Beneath d (p ++ [n]) := by
  rcases h with rfl | ⟨r, -, rfl⟩
  · exact ⟨[n], List.cons_ne_nil _ _, rfl⟩
  · exact ⟨r ++ [n], by simp, by rw [List.append_assoc]⟩

theorem not_beneath_snoc (h : ¬ Beneath d (p ++ [n])) : p ≠ d ∧ ¬ Beneath d p :=
  ⟨fun hp => h (.snoc (.inl hp) n), fun hp => h (.snoc (.inr hp) n)⟩

theorem beneath_of_snoc (h : Beneath d (p ++ [n])) : p = d ∨ Beneath d p := by
  obtain ⟨r, hr, heq⟩ := h
  rw [← List.dropLast_append_getLast hr, ← List.append_assoc] at heq
  obtain ⟨rfl, -⟩ := List.append_inj' heq rfl
  by_cases hnil : r.dropLast = []
  · exact .inl (by rw [hnil, List.append_nil])
  · exact .inr ⟨r.dropLast, hnil, rfl⟩

theorem Sub.eq (h : Sub fs' fs) (hq : fs'.node q ≠ none) : fs'.node q = fs.node q := by
  obtain ⟨x, hx⟩ := Option.ne_none_iff_exists'.mp hq
  rw [hx, h q x hx]

theorem Sub.there (h : Sub fs' fs) (hq : fs'.node q ≠ none) : fs.node q ≠ none := by
  rwa [← h.eq hq]

theorem Regular.sub (h : Regular fs' q) (hsub : Sub fs' fs) : Regular fs q := by
  obtain ⟨content, hcontent⟩ := h
  exact ⟨content, hsub q _ hcontent⟩

theorem Regular.there (h : Regular fs q) : fs.node q ≠ none := by
  obtain ⟨content, hcontent⟩ := h
  exact fs.there hcontent

theorem Regular.not_dir (h : Regular fs q) : fs.node q ≠ some .dir := by
  obtain ⟨content, hcontent⟩ := h
  simp [hcontent]

theorem IsLink.there (h : IsLink fs q) : fs.node q ≠ none := by
  obtain ⟨absolute, target, hlink⟩ := h
  exact fs.there hlink

theorem IsLink.kept (h : IsLink fs q) (hsub : Sub fs' fs) (hq : fs'.node q ≠ none) :
    IsLink fs' q := by
  obtain ⟨absolute, target, hlink⟩ := h
  obtain ⟨x, hx⟩ := Option.ne_none_iff_exists'.mp hq
  have hboth := hsub q x hx
  rw [hlink] at hboth
  cases hboth
  exact ⟨absolute, target, hx⟩

theorem IsLink.isLink {x : Node (Leaf FileName Bytes)} (h : IsLink fs q)
    (hx : fs.node q = some x) : x.isLink = true := by
  obtain ⟨absolute, target, hlink⟩ := h
  obtain rfl := Option.some.inj (hlink.symm.trans hx)
  rfl

theorem IsLink.not_dir (h : IsLink fs q) : fs.node q ≠ some .dir := by
  obtain ⟨absolute, target, hlink⟩ := h
  rw [hlink]
  exact fun hdir => by cases hdir

theorem IsLink.not_regular (h : IsLink fs q) : ¬ Regular fs q := by
  obtain ⟨absolute, target, hlink⟩ := h
  rintro ⟨content, hcontent⟩
  rw [hlink] at hcontent
  cases hcontent

theorem IsLink.sub (h : IsLink fs' q) (hsub : Sub fs' fs) : IsLink fs q := by
  obtain ⟨absolute, target, hlink⟩ := h
  exact ⟨absolute, target, hsub q _ hlink⟩

theorem IsLink.leaf (h : IsLink fs q) (hr : fs.node (q ++ r) ≠ none) : r = [] := by
  by_contra hne
  exact h.not_dir (fs.above hr hne)

theorem Stays.of_dir (hlink : IsLink fs (d ++ [n])) (hn : Enters fs d k n p l)
    (hp : fs.node p = some .dir) : Stays fs d k (d ++ [n]) := by
  refine .inr ⟨hlink, n, rfl, fun q j hq hregular => ?_⟩
  obtain ⟨rfl, -⟩ := Enters.unique hn hq
  exact hregular.not_dir hp

theorem Enters.more (h : Enters fs p l n q k) {j : ℕ} (hle : l ≤ j) :
    ∃ i, Enters fs p j n q i := by
  obtain ⟨m, rfl⟩ := Nat.exists_eq_add_of_le hle
  exact ⟨k + m, Nodes.Leads.more h m⟩

theorem Enters.same {q' : List FileName} {l' j j' : ℕ} (h : Enters fs p l n q j)
    (h' : Enters fs p l' n q' j') (hle : l ≤ l') : q = q' := by
  obtain ⟨i, hi⟩ := h.more hle
  exact (hi.unique h').1

namespace Names

theorem at_nil (h : Names cwd path fs d k) : At cwd path fs [] d k := by
  unfold At
  rw [List.map_nil, List.append_nil]
  exact h.leads

theorem le (h : Names cwd path fs d k) (hat : At cwd path fs names p l) : l ≤ k := by
  obtain ⟨m, j, hfirst, hlast⟩ := Nodes.Leads.split hat
  have hnil := h.at_nil
  unfold At at hnil
  rw [List.map_nil, List.append_nil] at hnil
  obtain ⟨rfl, rfl⟩ := hnil.unique hfirst
  exact hlast.le

/-- Only by a link of `d` does the recursion leave it. -/
theorem leaves (h : Names cwd path fs d k) (hlinks : LinksToFiles fs d k)
    (hat : At cwd path fs names p l) (hp : fs.node p = some .dir) :
    (p = d ∨ Beneath d p) ∨ ∃ n, IsLink fs (d ++ [n]) ∧ Stays fs d k (d ++ [n]) := by
  induction names using List.reverseRecOn generalizing p l with
  | nil =>
    obtain ⟨rfl, -⟩ := h.at_nil.unique hat
    exact .inl (.inl rfl)
  | append_singleton names n ih =>
    obtain ⟨p', l', hat', hn⟩ := at_append.mp hat
    obtain ⟨hp', hcases⟩ := hn.cases
    rcases ih hat' hp' with hin | hout
    · rcases hcases with ⟨rfl, -, -⟩ | ⟨-, hlink⟩
      · exact .inl (.inr (.snoc hin n))
      · rcases hin with rfl | ⟨r, hr, rfl⟩
        · obtain ⟨i, hi⟩ := hn.more (h.le hat')
          exact .inr ⟨n, hlink, .of_dir hlink hi hp⟩
        · obtain ⟨q, j, hq, hregular⟩ := hlinks r n hr hlink
          obtain rfl := hn.same hq (h.le hat')
          exact (hregular.not_dir hp).elim
    · exact .inr hout

end Names

/-- As long as nothing outside can be met, the clearing keeps what stays. -/
theorem Removes.stays (h : Names cwd path fs₀ d k) (hlinks : LinksToFiles fs₀ d k)
    (hout : NothingOutside cwd path fs₀ d) (hsub : Sub fs fs₀)
    (hstays : ∀ q, Stays fs₀ d k q → fs.node q = fs₀.node q) (hstep : Removes cwd path front fs fs')
    (hq : Stays fs₀ d k q) : fs'.node q = fs₀.node q := by
  rw [← hstays q hq]
  cases hstep with
  | @unlink names p q' n l j _ _ hat hn hregular hwithout =>
    rw [hwithout, if_neg]
    rintro rfl
    have hat₀ := hat.mono hsub
    have hn₀ := hn.mono hsub
    have hregular₀ := hregular.sub hsub
    rcases hq with hbeneath | ⟨-, m, heq, hm⟩
    · obtain ⟨hne, hnot⟩ := not_beneath_snoc hbeneath
      exact (hout names p l hat₀ hne hnot n).1 q' j hn₀ hregular₀
    · obtain ⟨rfl, rfl⟩ := List.append_singleton_inj.mp heq
      obtain ⟨i, hi⟩ := hn₀.more (h.le hat₀)
      exact hm q' i hi hregular₀
  | @rmdir names p n l _ _ hat hdir hempty hwithout =>
    rw [hwithout, if_neg]
    rintro rfl
    have hat₀ := hat.mono hsub
    have there (m : FileName) (hm : fs₀.node (p ++ [n] ++ [m]) ≠ none)
        (hstay : Stays fs₀ d k (p ++ [n] ++ [m])) : False := by
      have hchild : m ∈ fs.children (p ++ [n]) := by
        rw [fs.mem_children, hstays _ hstay]
        exact hm
      rw [hempty] at hchild
      contradiction
    rcases hq with hbeneath | ⟨hlink, -⟩
    · obtain ⟨hne, hnot⟩ := not_beneath_snoc hbeneath
      by_cases hd : p ++ [n] = d
      · -- `d` itself has the link that led out of it
        have hp : fs₀.node p = some .dir :=
          fs₀.above (r := [n]) (by simp [hsub _ _ hdir]) (List.cons_ne_nil _ _)
        rcases h.leaves hlinks hat₀ hp with hin | ⟨m, hm, hstay⟩
        · exact hin.elim hne hnot
        · subst hd
          exact there m hm.there hstay
      · obtain ⟨m, hm⟩ := List.exists_mem_of_ne_nil _
          ((hout names p l hat₀ hne hnot n).2 (hsub _ _ hdir) hd)
        refine there m (fs₀.mem_children.mp hm) (.inl fun hm => ?_)
        exact (beneath_of_snoc hm).elim hd hbeneath
    · exact hlink.not_dir (hsub _ _ hdir)

theorem Steps.stays (h : Names cwd path fs₀ d k) (hlinks : LinksToFiles fs₀ d k)
    (hout : NothingOutside cwd path fs₀ d) (hsteps : Steps cwd path front fs₀ fs)
    (hq : Stays fs₀ d k q) : fs.node q = fs₀.node q := by
  induction hsteps generalizing q with
  | refl => rfl
  | tail hsteps hstep ih =>
    exact hstep.stays h hlinks hout (Steps.sub hsteps) (fun q hq => ih hq) hq

/-- The directories beneath `d` are found where they are while the path leads to `d`. -/
theorem at_below {front : List FileName} (hat : At cwd path fs front (d ++ front) k)
    (hfront : front <+: r) (hdir : fs.node (d ++ r) = some .dir) : At cwd path fs r (d ++ r) k := by
  obtain ⟨s, rfl⟩ := hfront
  induction s using List.reverseRecOn with
  | nil => rwa [List.append_nil]
  | append_singleton s n ih =>
    rw [← List.append_assoc front, ← List.append_assoc d] at hdir ⊢
    have habove : fs.node (d ++ (front ++ s)) = some .dir :=
      fs.above (r := [n]) (fs.there hdir) (List.cons_ne_nil _ _)
    exact at_append.mpr ⟨_, k, ih habove, .dir hdir⟩

theorem WayOpen.at_nil (hopen : WayOpen cwd path fs₀ d k) (h : Names cwd path fs₀ d k)
    (hlinks : LinksToFiles fs₀ d k) (hout : NothingOutside cwd path fs₀ d)
    (hsteps : Steps cwd path front fs₀ fs) (hn : ¬ IsLink fs₀ (d ++ [n]))
    (hthere : fs.node (d ++ [n]) ≠ none) : At cwd path fs [] d k := by
  have hsub := Steps.sub hsteps
  have hway : Nodes.Leads fs.node (pathStart cwd path) maxLinks (components path) d k := by
    apply Nodes.Leads.mono _ hopen
    intro q x hx
    obtain ⟨hstays | ⟨y, rfl, honly⟩, hx⟩ := only_sub hx
    · rwa [hsteps.stays h hlinks hout hstays]
    · obtain rfl := honly n (hsub.there hthere) hn
      rwa [hsub.eq hthere]
  unfold At
  rwa [List.map_nil, List.append_nil]

/-- While the clearing takes away in directories that it reaches by way of `front` only, the
path leads to those of them that still have an entry to take away. -/
def StaysOpen (cwd : List FileName) (path : Path) (fs₀ : LinkedSystem) (d : List FileName)
    (k : ℕ) (front : List FileName) : Prop :=
  ∀ fs r n, Steps cwd path front fs₀ fs → front <+: r → (r = [] → ¬ IsLink fs₀ (d ++ [n])) →
    fs.node (d ++ r ++ [n]) ≠ none → At cwd path fs r (d ++ r) k

theorem WayOpen.staysOpen (hopen : WayOpen cwd path fs₀ d k) (h : Names cwd path fs₀ d k)
    (hlinks : LinksToFiles fs₀ d k) (hout : NothingOutside cwd path fs₀ d) :
    StaysOpen cwd path fs₀ d k [] := by
  intro fs r n hsteps _ hlink hthere
  have hdir : fs.node (d ++ r) = some .dir := fs.above hthere (List.cons_ne_nil _ _)
  have hat : At cwd path fs [] (d ++ []) k := by
    rw [List.append_nil]
    cases r with
    | nil =>
      rw [List.append_nil] at hthere
      exact hopen.at_nil h hlinks hout hsteps (hlink rfl) hthere
    | cons m r =>
      rw [← List.singleton_append, ← List.append_assoc] at hdir
      have hm := fs.node_front (fs.there hdir)
      apply hopen.at_nil h hlinks hout hsteps _ hm
      intro hm₀
      have hm₁ := hm₀.kept (Steps.sub hsteps) hm
      obtain rfl := hm₁.leaf (fs.there hdir)
      rw [List.append_nil] at hdir
      exact hm₁.not_dir hdir
  exact at_below hat List.nil_prefix hdir

/-! ### What is left -/

/-- Nothing will take the entry away: it is a link that leads to no regular file, or a
directory with such an entry in it. -/
inductive Stuck (fs : LinkedSystem) (k : ℕ) : List FileName → Prop where
  | link {p : List FileName} {n : FileName} : IsLink fs (p ++ [n]) →
    (∀ q l, Enters fs p k n q l → ¬ Regular fs q) → Stuck fs k (p ++ [n])
  | dir {p : List FileName} {n : FileName} : fs.node p = some .dir → Stuck fs k (p ++ [n]) →
    Stuck fs k p

theorem Stuck.there (h : Stuck fs k q) : fs.node q ≠ none := by
  cases h with
  | link hlink => exact hlink.there
  | dir hdir => exact fs.there hdir

theorem Stuck.removes (h : Stuck fs k q) (hstep : Removes cwd path front fs fs')
    (hle : ∀ names p l, At cwd path fs names p l → l ≤ k) : Stuck fs' k q := by
  induction h with
  | @link p n hlink hno =>
    refine .link (IsLink.kept hlink hstep.sub ?_) fun q l hq hregular =>
      hno q l (hq.mono hstep.sub) (hregular.sub hstep.sub)
    cases hstep with
    | @unlink names p' q n' l j _ _ hat hn hregular hwithout =>
      rw [hwithout, if_neg]
      · exact hlink.there
      · intro heq
        obtain ⟨rfl, rfl⟩ := List.append_singleton_inj.mp heq
        obtain ⟨i, hi⟩ := hn.more (hle names p l hat)
        exact hno q i hi hregular
    | @rmdir names p' n' l _ _ hat hdir hempty hwithout =>
      rw [hwithout, if_neg]
      · exact hlink.there
      · intro heq
        rw [← heq] at hdir
        exact hlink.not_dir hdir
  | @dir p n hdir hstuck ih =>
    refine .dir ?_ ih
    cases hstep with
    | @unlink names p' q n' l j _ _ hat hn hregular hwithout =>
      rw [hwithout, if_neg, hdir]
      intro heq
      obtain ⟨leaf, hleaf⟩ := hn.leaf hregular
      rw [← heq, hdir] at hleaf
      cases hleaf
    | @rmdir names p' n' l _ _ hat hdir' hempty hwithout =>
      rw [hwithout, if_neg, hdir]
      intro heq
      have hchild := fs.mem_children.mpr hstuck.there
      rw [heq, hempty] at hchild
      contradiction

theorem Stuck.steps (h : Stuck fs k q) (hle : ∀ names p l, At cwd path fs names p l → l ≤ k)
    (hsteps : Steps cwd path front fs fs') : Stuck fs' k q := by
  induction hsteps with
  | refl => exact h
  | tail hsteps hstep ih =>
    exact ih.removes hstep fun names p l hat => hle names p l (hat.mono (Steps.sub hsteps))

theorem Enters.real {x : Node (Leaf FileName Bytes)} (hx : fs.node (p ++ [n]) = some x)
    (hno : x.isLink = false) (k : ℕ) : Enters fs p k n (p ++ [n]) k := by
  have hp : fs.node p = some .dir := fs.above (r := [n]) (by simp [hx]) (List.cons_ne_nil _ _)
  exact .next hp hx hno .done

theorem link_or_real (hq : fs.node q ≠ none) :
    IsLink fs q ∨ fs.node q = some .dir ∨ Regular fs q := by
  obtain ⟨x, hx⟩ := Option.ne_none_iff_exists'.mp hq
  cases x with
  | dir => exact .inr (.inl hx)
  | file leaf =>
    cases leaf with
    | regular content => exact .inr (.inr ⟨content, hx⟩)
    | link absolute target => exact .inl ⟨absolute, target, hx⟩

/-- What is still there after its turn is stuck. -/
theorem EntryResult.stuck {sub : Path → LinkedSystem → Option LinkedSystem}
    (hpath : path ≠ []) (hresult : EntryResult cwd path sub names n fs (some fs'))
    (hsub : ∀ fs', sub (path ++ relativePath (names ++ [n])) fs = some fs' →
      Steps cwd path (names ++ [n]) fs fs')
    (hle : ∀ names p l, At cwd path fs names p l → l ≤ k) (hat : At cwd path fs names p k)
    (hbelow : ∀ fs₂, sub (path ++ relativePath (names ++ [n])) fs = some fs₂ → Sub fs' fs₂ →
      At cwd path fs₂ names p k ∧
        ∀ m, fs₂.node (p ++ [n] ++ [m]) ≠ none → Stuck fs₂ k (p ++ [n] ++ [m]))
    (hthere : fs'.node (p ++ [n]) ≠ none) : Stuck fs' k (p ++ [n]) := by
  have real (x : Node (Leaf FileName Bytes)) (hx : fs.node (p ++ [n]) = some x)
      (hno : x.isLink = false) : At cwd path fs (names ++ [n]) (p ++ [n]) k :=
    at_append.mpr ⟨p, k, hat, .real hx hno k⟩
  generalize hsome : some fs' = result at hresult
  cases hresult with
  | @dir q l hq hdir =>
    obtain ⟨fs₂, hcleared, rfl⟩ := Option.map_eq_some_iff.mp hsome.symm
    have hsteps := hsub fs₂ hcleared
    have hrmdir := rmdir_steps cwd hpath fs₂ names n
    have hthere₂ : fs₂.node (p ++ [n]) ≠ none := hrmdir.sub.there hthere
    have hthere₀ : fs.node (p ++ [n]) ≠ none := hsteps.sub.there hthere₂
    rcases link_or_real hthere₀ with hlink | hreal | hregular
    · have hback := hrmdir.sub.trans hsteps.sub
      refine .link (IsLink.kept hlink hback hthere) fun q' l' hq' hregular => ?_
      obtain ⟨p', k', hat', hn⟩ := at_append.mp hq
      obtain ⟨rfl, rfl⟩ := hat.unique hat'
      obtain ⟨rfl, -⟩ := hn.unique (hq'.mono hback)
      exact (hregular.sub hback).not_dir hdir
    · -- `rmdir` has failed
      have hreal₂ : fs₂.node (p ++ [n]) = some .dir := (hsteps.sub.eq hthere₂).trans hreal
      obtain ⟨hat₂, hchildren⟩ := hbelow fs₂ hcleared hrmdir.sub
      cases hlist : fs₂.children (p ++ [n]) with
      | nil =>
        obtain ⟨fs₃, hfs₃, hwithout⟩ := rmdir_empty hpath hat₂ hreal₂ hlist
        rw [hfs₃, Option.getD_some, hwithout, if_pos rfl] at hthere
        contradiction
      | cons m rest =>
        have hm := hchildren m (fs₂.mem_children.mp (by simp [hlist]))
        have hstuck : Stuck fs₂ k (p ++ [n]) := .dir hreal₂ hm
        exact hstuck.steps (fun names p l hat => hle names p l (hat.mono hsteps.sub)) hrmdir
    · obtain ⟨content, hcontent⟩ := hregular
      obtain ⟨rfl, -⟩ := (real _ hcontent rfl).unique hq
      rw [hcontent] at hdir
      cases hdir
  | file hat' hn hregular hwithout =>
    cases hsome
    obtain ⟨rfl, -⟩ := hat.unique hat'
    rw [hwithout, if_pos rfl] at hthere
    contradiction
  | skipped hnone =>
    cases hsome
    rcases link_or_real hthere with hlink | hreal | hregular
    · exact .link hlink fun q l hq hregular =>
        (hnone q l (at_append.mpr ⟨p, k, hat, hq⟩)).2 hregular
    · exact ((hnone _ _ (real _ hreal rfl)).1 hreal).elim
    · obtain ⟨content, hcontent⟩ := hregular
      exact ((hnone _ _ (real _ hcontent rfl)).2 ⟨content, hcontent⟩).elim

section Runs
variable {sub : Path → LinkedSystem → Option LinkedSystem} {entries : List Name}
  {order : ReadOrder} (h : Names cwd path fs₀ d k)
include h

theorem clearEntries_stuck (hfront : front <+: r)
    (hdirs : ∀ fs, Steps cwd path front fs₀ fs → Sub fs' fs → At cwd path fs r (d ++ r) k)
    (hentries : ∀ entry ∈ entries, EntryOk path r entry)
    (hsub : StepsBelow cwd path sub r)
    (hbelow : ∀ n fs fs', Steps cwd path front fs₀ fs →
      sub (path ++ relativePath (r ++ [n])) fs = some fs' →
      ∀ m, fs'.node (d ++ r ++ [n] ++ [m]) ≠ none → Stuck fs' k (d ++ r ++ [n] ++ [m]))
    (hreach : Steps cwd path front fs₀ fs)
    (hcleared : clearEntries cwd sub (path ++ relativePath r) entries fs = some fs')
    (hn : n.val ∈ entries) (hthere : fs'.node (d ++ r ++ [n]) ≠ none) :
    Stuck fs' k (d ++ r ++ [n]) := by
  have hle : ∀ fs, Steps cwd path front fs₀ fs → ∀ names p l, At cwd path fs names p l → l ≤ k :=
    fun fs hsteps names p l hat => h.le (hat.mono (Steps.sub hsteps))
  induction entries generalizing fs with
  | nil => contradiction
  | cons entry entries ih =>
    have hentry := hentries entry List.mem_cons_self
    have hrest : ∀ e ∈ entries, EntryOk path r e :=
      fun e he => hentries e (List.mem_cons_of_mem _ he)
    have hfit : PathsFit cwd path fs := h.fits.sub (Steps.sub hreach)
    rcases hentry.dots_or_name with hdots | ⟨m, rfl⟩
    · rw [clearEntries_dots h.nonempty hentry hdots] at hcleared
      apply ih hrest hreach hcleared
      rcases List.mem_cons.mp hn with heq | hmem
      · rcases hdots with hdot | hdotdot
        · exact (n.property.2.1 (heq.trans hdot)).elim
        · exact (n.property.2.2 (heq.trans hdotdot)).elim
      · exact hmem
    · obtain ⟨fs₁, hresult, hlast⟩ := clearEntries_next h.nonempty hentry hcleared
      have hsteps₁ := hresult.steps h.nonempty fun fs₂ => hsub m fs fs₂ hfit
      have hreach₁ := hreach.trans (hsteps₁.within hfront)
      rcases List.mem_cons.mp hn with hnm | hmem
      · obtain rfl := Subtype.ext hnm
        have hsteps₂ : Steps cwd path r fs₁ fs' :=
          clearEntries_steps h.nonempty hsub hrest (h.fits.sub (Steps.sub hreach₁)) hlast
        have hat := hdirs fs hreach (hsteps₂.sub.trans hsteps₁.sub)
        have hstuck : Stuck fs₁ k (d ++ r ++ [n]) := by
          refine hresult.stuck h.nonempty (fun fs₂ => hsub n fs fs₂ hfit) (hle fs hreach) hat ?_
            (hsteps₂.sub.there hthere)
          intro fs₂ hfs₂ hsub₂
          have hcall := (hsub n fs fs₂ hfit hfs₂).within (hfront.trans (List.prefix_append r [n]))
          exact ⟨hdirs fs₂ (hreach.trans hcall) (hsteps₂.sub.trans hsub₂),
            hbelow n fs fs₂ hreach hfs₂⟩
        exact hstuck.steps (hle fs₁ hreach₁) hsteps₂
      · exact ih hrest hreach₁ hlast hmem

/-- When the call for a directory has come to its end, what is left in it is stuck. -/
theorem clearDirectory_stuck (hopen : StaysOpen cwd path fs₀ d k front) (horder : order.Ok cwd)
    (hfront : front <+: r) {fuel : ℕ} (hreach : Steps cwd path front fs₀ fs)
    (hcleared : clearDirectory order cwd fuel (path ++ relativePath r) fs = some fs')
    (hlink : r = [] → ¬ IsLink fs₀ (d ++ [n])) (hthere : fs'.node (d ++ r ++ [n]) ≠ none) :
    Stuck fs' k (d ++ r ++ [n]) := by
  induction fuel generalizing r n fs fs' with
  | zero => contradiction
  | succ fuel ih =>
    have hfit : PathsFit cwd path fs := h.fits.sub (Steps.sub hreach)
    have hsteps := clearDirectory_steps horder h.nonempty (fuel + 1) hfit hcleared
    have hold : fs.node (d ++ r ++ [n]) ≠ none := hsteps.sub.there hthere
    have hat := hopen fs r n hreach hfront hlink hold
    have hdir : fs.node (d ++ r) = some .dir := fs.above hold (List.cons_ne_nil _ _)
    rw [clearDirectory_eq h.nonempty hat hdir] at hcleared
    refine clearEntries_stuck h hfront
      (fun fs hreach hsub => hopen fs r n hreach hfront hlink (hsub.there hthere))
      (order_entries horder h.nonempty hfit hat hdir)
      (clearDirectory_below horder h.nonempty fuel r) ?_ hreach hcleared ?_ hthere
    · intro m fs₁ fs₂ hreach₁ hcleared₁ o ho
      rw [List.append_assoc d r [m]] at ho ⊢
      exact ih (hfront.trans (List.prefix_append r [m])) hreach₁ hcleared₁ (by simp) ho
    · have hperm := horder fs _ _ _ ((follow_iff h.nonempty).mpr hat) hdir
      apply hperm.mem_iff.mpr
      simp only [List.mem_cons, List.mem_map]
      exact .inr (.inr ⟨n, fs.mem_children.mpr hold, rfl⟩)

variable (hlinks : LinksToFiles fs₀ d k) (hout : NothingOutside cwd path fs₀ d)
include hlinks hout

theorem stuck_free (hown : LinksOnTheirOwn fs₀ d k) (hreach : Steps cwd path [] fs₀ fs)
    (hstuck : Stuck fs k q) (hq : q = d ++ r) (hr : 2 ≤ r.length) : False := by
  induction hstuck generalizing r with
  | @link p n hlink hno =>
    have hne : r ≠ [] := by
      rintro rfl
      exact absurd hr (by simp)
    obtain ⟨s, m, rfl⟩ : ∃ s m, r = s ++ [m] := ⟨_, _, (List.dropLast_append_getLast hne).symm⟩
    rw [← List.append_assoc] at hq
    obtain ⟨rfl, rfl⟩ := List.append_singleton_inj.mp hq
    have hs : s ≠ [] := by
      rintro rfl
      exact absurd hr (by simp)
    have hsub := Steps.sub hreach
    obtain ⟨q, l, hleads, hregular⟩ := hown s n hs (hlink.sub hsub)
    have hn : Enters fs (d ++ s) k n q l := hleads.mono fun t x hx => by
      obtain ⟨hstays | ⟨u, hu⟩, hx⟩ := only_sub hx
      · rwa [Steps.stays h hlinks hout hreach hstays]
      · have hthere : fs.node t ≠ none := by
          apply fs.node_front (r := u)
          rw [hu]
          exact hlink.there
        rwa [hsub.eq hthere]
    obtain ⟨x, hx, -⟩ := hn.there fs.node_root ⟨.dir, hn.cases.1, rfl⟩
    obtain ⟨content, hcontent⟩ := hregular
    refine hno q l hn ⟨content, ?_⟩
    rw [hsub.eq (fs.there hx), hcontent]
  | @dir p n hdir hstuck ih =>
    subst hq
    apply ih (r := r ++ [n])
    · rw [List.append_assoc]
    · rw [List.length_append]
      omega

theorem clearDirectory_clears (hopen : WayOpen cwd path fs₀ d k)
    (hown : LinksOnTheirOwn fs₀ d k) (horder : order.Ok cwd) {fuel : ℕ}
    (hcleared : clearDirectory order cwd fuel path fs₀ = some fs') :
    Clears d fs₀ fs' := by
  have hcleared : clearDirectory order cwd fuel (path ++ relativePath []) fs₀ = some fs' := by
    rwa [relativePath_nil, List.append_nil]
  have hsteps := clearDirectory_steps horder h.nonempty fuel h.fits hcleared
  have hleft (n : FileName) (hn : fs'.node (d ++ [n]) ≠ none) : IsLink fs' (d ++ [n]) := by
    by_cases hlink : IsLink fs₀ (d ++ [n])
    case pos => exact hlink.kept hsteps.sub hn
    have hstuck : Stuck fs' k (d ++ [] ++ [n]) := by
      apply clearDirectory_stuck h (hopen.staysOpen h hlinks hout) horder List.prefix_rfl .refl
        hcleared (fun _ => hlink)
      rwa [List.append_nil]
    rw [List.append_nil] at hstuck
    generalize hq : d ++ [n] = q at hstuck
    cases hstuck with
    | link hlink => exact hlink
    | dir _ hbelow =>
      subst hq
      exact (stuck_free h hlinks hout hown hsteps hbelow (List.append_assoc _ _ _)
        (by simp)).elim
  constructor
  · intro q hq
    exact Steps.stays h hlinks hout hsteps (.inl hq)
  · rintro q ⟨r, hr, rfl⟩
    cases r with
    | nil => contradiction
    | cons n r =>
      have left_is_link (hthere : fs'.node (d ++ n :: r) ≠ none) :
          r = [] ∧ IsLink fs' (d ++ [n]) := by
        by_cases hnil : r = []
        · subst hnil
          exact ⟨rfl, hleft n hthere⟩
        · rw [← List.singleton_append, ← List.append_assoc] at hthere
          have habove := fs'.above hthere hnil
          exact ((hleft n (fs'.there habove)).not_dir habove).elim
      constructor
      · intro hbelow
        obtain ⟨rfl, hlink⟩ := left_is_link (fs'.there hbelow)
        exact hlink.not_dir hbelow
      · intro hregular
        obtain ⟨rfl, hlink⟩ := left_is_link hregular.there
        exact hlink.not_regular hregular

end Runs

end Setting
end Clearing
end AdvancedCProjects.Bibak
