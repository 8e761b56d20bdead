import AdvancedCProjects.Bibak.Names

/-!
# The server's file contents

All messages of the watch loop applied to the files of the initial
synchronisation, while local files are created and rewritten.
-/

namespace AdvancedCProjects.Bibak
open Base

abbrev Contents := Path → Option Bytes

/-- One message applied to the files under their relative paths. -/
def Message.applyContent (server : Contents) : Message → Contents
  | .create p _ => Function.update server p (some [])
  | .delete p => Function.update server p none
  | .update _ p data => Function.update server p (some data)

def fileContents (base : Path) (tree : Listing) : Contents := fun r =>
  ((tree.files base).find? fun f => f.path = base ++ r).map Inode.content

def serverContents (base : Path) (s : Client) : Contents :=
  s.sent.foldl Message.applyContent (fileContents base s.synced)

def Client.table (s : Client) : Block := (s.heap s.param).getD temp

/-- Files are created or rewritten; a rewrite has a strictly later time. -/
def Grows (base : Path) (s : Client) : Action → Prop
  | .env tree => ∀ f ∈ s.tree.files base, ∃ g ∈ tree.files base,
      g.path = f.path ∧ (g = f ∨ f.mtime < g.mtime)
  | _ => True

/-- A rescan finds the reported file empty and no entry outdated, and gets the
freed block back. -/
def RescanTimely (base : Path) (s : Client) (addr : ℕ) : Pc → Prop
  | .createRescan p => addr = s.param ∧
    (∀ f ∈ s.tree.files base, f.path = p → f.content = []) ∧
    ∀ i < s.count, ∀ f ∈ s.tree.files base, f.path = (s.table i).filepath →
      f.mtime ≤ (s.table i).lastModifiedTime
  | _ => True

/-- A file rewritten while the server has it stands in the range `check_update`
scans, with a time, unless its own CREATE is being followed by a rescan. -/
def Timely (base : Path) (s : Client) : Action → Prop
  | .env tree => ∀ f ∈ s.tree.files base, ∀ g ∈ tree.files base, g.path = f.path → g ≠ f →
      serverContents base s (removeBasePath f.path base) ≠ none →
      s.pc = .createRescan f.path ∨
      ∃ i < s.count, (s.table i).filepath = f.path ∧ (s.table i).lastModifiedTime ≠ 0
  | .poll => True
  | .rescan addr _ => RescanTimely base s addr s.pc

def GrowsTimely (base : Path) (s : Client) (a : Action) : Prop :=
  Grows base s a ∧ Timely base s a

instance (base : Path) (s : Client) : DecidablePred (Grows base s)
  | .env _ => inferInstanceAs (Decidable (∀ _ ∈ _, _))
  | .poll | .rescan _ _ => inferInstanceAs (Decidable True)

instance (base : Path) (s : Client) (addr : ℕ) : DecidablePred (RescanTimely base s addr)
  | .createRescan _ => inferInstanceAs (Decidable (_ ∧ _))
  | .checkCreate | .created _ | .checkDelete | .deleted _ | .deleteRescan _ | .checkUpdate _
  | .statEntry _ | .updated _ | .crashed => inferInstanceAs (Decidable True)

instance (base : Path) (s : Client) : DecidablePred (Timely base s)
  | .env _ => inferInstanceAs (Decidable (∀ _ ∈ _, _))
  | .poll => inferInstanceAs (Decidable True)
  | .rescan addr _ => inferInstanceAs (Decidable (RescanTimely base s addr s.pc))

instance (base : Path) (s : Client) (a : Action) : Decidable (GrowsTimely base s a) :=
  inferInstanceAs (Decidable (_ ∧ _))

/-! ### Files and scans -/

section Files
variable {base : Path} {tree : Listing}

theorem node_unique (hok : tree.NamesOk) {f g : Inode} (hf : f ∈ tree.nodes base)
    (hg : g ∈ tree.nodes base) (h : f.path = g.path) : f = g :=
  List.inj_on_of_nodup_map (tree.nodes_nodup hok base) hf hg h

theorem mem_nodes {f : Inode} (hf : f ∈ tree.files base) : f ∈ tree.nodes base :=
  List.mem_of_mem_filter hf

theorem stat_file (hok : tree.NamesOk) {f : Inode} (hf : f ∈ tree.files base) :
    tree.stat base f.path = some f := by
  cases hs : tree.stat base f.path with
  | none => simpa using List.find?_eq_none.mp hs f (mem_nodes hf)
  | some g =>
    have hp : g.path = f.path := by simpa using List.find?_some hs
    rw [node_unique hok (List.mem_of_find?_eq_some hs) (mem_nodes hf) hp]

theorem fileContents_some {r : Path} {c : Bytes} (h : fileContents base tree r = some c) :
    ∃ f ∈ tree.files base, f.path = base ++ r ∧ f.content = c := by
  obtain ⟨f, hf, rfl⟩ := Option.map_eq_some_iff.mp h
  exact ⟨f, List.mem_of_find?_eq_some hf, by simpa using List.find?_some hf, rfl⟩

theorem fileContents_file (hok : tree.NamesOk) {f : Inode} (hf : f ∈ tree.files base) :
    fileContents base tree (removeBasePath f.path base) = some f.content := by
  have hb : base ++ removeBasePath f.path base = f.path :=
    filePaths_below hok _ (List.mem_map_of_mem hf)
  cases h : fileContents base tree (removeBasePath f.path base) with
  | none =>
    have hno := Option.map_eq_none_iff.mp h
    simpa [hb] using List.find?_eq_none.mp hno f hf
  | some c =>
    obtain ⟨g, hg, hp, rfl⟩ := fileContents_some h
    rw [node_unique hok (mem_nodes hg) (mem_nodes hf) (hp.trans hb)]

theorem scan_count_min (hfit : tree.Fits base) {b : Block} :
    (scan base tree b).count = min maxFiles (filePaths base tree).length := by
  have hlen := congrArg List.length (scan_entries (b := b) hfit)
  simpa [Snapshot.entries, filePaths] using hlen

theorem scan_listed (hfit : tree.Fits base) {b : Block} {i : ℕ}
    (hi : i < (scan base tree b).count) :
    ∃ f ∈ tree.files base, (scan base tree b).files i = Listing.info f := by
  have hmem : (scan base tree b).files i ∈ (scan base tree b).entries :=
    Block.mem_entries.mpr ⟨i, hi, rfl⟩
  rw [scan_entries hfit] at hmem
  obtain ⟨f, hf, heq⟩ := List.mem_map.mp (List.mem_of_mem_take hmem)
  exact ⟨f, hf, heq.symm⟩

end Files

/-! ### What the steps keep -/

def Stale (base : Path) (s : Client) (f : Inode) : Prop :=
  ∃ c, serverContents base s (removeBasePath f.path base) = some c ∧ c ≠ f.content

def Newer (table : Block) (f : Inode) (i : ℕ) : Prop :=
  (table i).filepath = f.path ∧ (table i).lastModifiedTime ≠ 0 ∧
    (table i).lastModifiedTime < f.mtime

/-- The path a message or a rescan is under way for. -/
def Half (table : Block) : Pc → Path → Prop
  | .updated i, p => (table i).filepath = p
  | .createRescan q, p => q = p
  | _, _ => False

def PcOk (base : Path) (s : Client) : Pc → Prop
  | .created p => p ∈ filePaths base s.tree
  | .createRescan p => p ∈ filePaths base s.tree ∧
      serverContents base s (removeBasePath p base) = some []
  | .statEntry i | .updated i => i < s.count
  | .deleted _ | .deleteRescan _ | .crashed => False
  | .checkCreate | .checkDelete | .checkUpdate _ => True

structure Recorded (base : Path) (s : Client) : Prop where
  names : s.tree.NamesOk
  fits : s.tree.Fits base
  one : s.param = s.fileInfos
  live : s.heap s.param = some s.table
  range : s.count ≤ s.globCount
  room : s.globCount ≤ min maxFiles (filePaths base s.tree).length
  listed : ∀ i < s.globCount, ∃ f ∈ s.tree.files base, (s.table i).filepath = f.path ∧
    (s.table i).lastModifiedTime ≤ f.mtime
  known : ∀ r, serverContents base s r ≠ none → base ++ r ∈ filePaths base s.tree
  pcOk : PcOk base s s.pc
  due : ∀ f ∈ s.tree.files base, Stale base s f →
    (∃ i < s.count, Newer s.table f i) ∨ Half s.table s.pc f.path

section Steps
variable {base : Path} {s t : Client}

theorem Recorded.move (h : Recorded base s) {pc : Pc} (hok : PcOk base s pc)
    (hhalf : ∀ p, Half s.table s.pc p → Half s.table pc p) :
    Recorded base { s with pc := pc } where
  names := h.names
  fits := h.fits
  one := h.one
  live := h.live
  range := h.range
  room := h.room
  listed := h.listed
  known := h.known
  pcOk := by cases pc <;> exact hok
  due f hf hst := (h.due f hf hst).imp id (hhalf f.path)

theorem Recorded.checkCreate (h : Recorded base s) (hpc : s.pc = .checkCreate) :
    Recorded base (s.checkCreate base) := by
  have hno : ∀ pc p, Half s.table s.pc p → Half s.table pc p := by simp [hpc, Half]
  simp only [Client.checkCreate, readTable_of_live h.live]
  split
  · exact h.move trivial (hno _)
  cases hm : firstMissing (scan base s.tree temp).entries (s.table.entries s.globCount) with
  | none => exact h.move trivial (hno _)
  | some e =>
    refine h.move ?_ (hno _)
    obtain ⟨i, hi, he⟩ := Block.mem_entries.mp (firstMissing_some hm).1
    obtain ⟨f, hf, hinfo⟩ := scan_listed h.fits hi
    rw [← he, hinfo]
    exact List.mem_map_of_mem hf

theorem Recorded.checkDelete (h : Recorded base s) (hpc : s.pc = .checkDelete) :
    Recorded base (s.checkDelete base) := by
  have hroom := h.room
  rw [← scan_count_min h.fits (b := temp)] at hroom
  simp only [Client.checkDelete, if_pos hroom]
  exact h.move trivial (by simp [hpc, Half])

theorem Recorded.checkUpdate (h : Recorded base s) {i : ℕ} (hpc : s.pc = .checkUpdate i) :
    Recorded base (s.checkUpdate base i) := by
  have hno : ∀ pc p, Half s.table s.pc p → Half s.table pc p := by simp [hpc, Half]
  simp only [Client.checkUpdate, h.live]
  split
  · exact h.move trivial (hno _)
  next hlt =>
  have hrange := h.range
  obtain ⟨f, hf, hp, -⟩ := h.listed i (by omega)
  rw [hp, stat_file h.names hf]
  exact h.move (by simpa [PcOk] using hlt) (hno _)

theorem Recorded.record (h : Recorded base s) {i : ℕ} {f : Inode} (hf : f ∈ s.tree.files base)
    (hp : (s.table i).filepath = f.path) {pc : Pc}
    (hok : PcOk base s pc) (hpc : ∀ p, ¬ Half s.table s.pc p)
    (hhalf : Newer s.table f i → Half s.table pc f.path) :
    Recorded base { s with
      heap := Function.update s.heap s.param
        (some (Function.update s.table i { s.table i with lastModifiedTime := f.mtime }))
      pc := pc } := by
  set b := Function.update s.table i { s.table i with lastModifiedTime := f.mtime } with hb
  have hpath : ∀ j, (b j).filepath = (s.table j).filepath := by
    intro j
    by_cases hj : j = i
    · subst hj; simp [hb]
    · rw [hb, Function.update_of_ne hj]
  have htable : Client.table { s with heap := Function.update s.heap s.param (some b), pc := pc }
      = b := by simp [Client.table]
  constructor
  case names => exact h.names
  case fits => exact h.fits
  case one => exact h.one
  case live => simp [htable]
  case range => exact h.range
  case room => exact h.room
  case known => exact h.known
  case pcOk => cases pc <;> exact hok
  case listed =>
    intro j hj
    rw [htable]
    obtain ⟨g, hg, hgp, ht⟩ := h.listed j hj
    refine ⟨g, hg, (hpath j).trans hgp, ?_⟩
    by_cases hji : j = i
    · subst hji
      rw [node_unique h.names (mem_nodes hg) (mem_nodes hf) (hgp.symm.trans hp)]
      simp [hb]
    · rw [hb, Function.update_of_ne hji]
      exact ht
  case due =>
    intro g hg hst
    rw [htable]
    rcases h.due g hg hst with ⟨j, hj, hnew⟩ | hhf
    · by_cases hji : j = i
      · -- the entry just recorded: its update is what comes next
        subst hji
        have hgf := node_unique h.names (mem_nodes hg) (mem_nodes hf) (hnew.1.symm.trans hp)
        subst hgf
        right
        have hh := hhalf hnew
        cases pc <;> simp only [Half] at hh ⊢
        · exact hh
        · exact (hpath _).trans hh
      · left
        refine ⟨j, hj, ?_⟩
        simp only [Newer, hb, Function.update_of_ne hji]
        exact hnew
    · exact (hpc _ hhf).elim

theorem Recorded.statEntry (h : Recorded base s) {i : ℕ} (hpc : s.pc = .statEntry i) :
    Recorded base (s.statEntry base i) := by
  have hno : ∀ p, ¬ Half s.table s.pc p := by simp [hpc, Half]
  have hi : i < s.count := by simpa [hpc, PcOk] using h.pcOk
  have hrange := h.range
  obtain ⟨f, hf, hp, -⟩ := h.listed i (by omega)
  have hstat : s.tree.stat base (s.table i).filepath = some f := hp ▸ stat_file h.names hf
  simp only [Client.statEntry, h.live, hstat]
  split
  · next hzero => exact h.record hf hp trivial hno fun hnew => (hnew.2.1 hzero).elim
  split
  · exact h.record hf hp hi hno fun _ => hp
  · exact h.move trivial fun p hh => (hno p hh).elim

theorem Recorded.message (h : Recorded base s) {p : Path} (hp : p ∈ filePaths base s.tree)
    {m : Message} {c : Bytes} {pc : Pc}
    (hm : ∀ server, m.applyContent server
      = Function.update server (removeBasePath p base) (some c))
    (hok : ∀ u : Client, u.tree = s.tree → u.count = s.count →
      serverContents base u (removeBasePath p base) = some c → PcOk base u pc)
    (hother : ∀ q, q ≠ p → ¬ Half s.table s.pc q)
    (hsame : ∀ f ∈ s.tree.files base, f.path = p → c ≠ f.content → Half s.table pc p) :
    Recorded base { s with sent := s.sent ++ [m], pc := pc } := by
  set u : Client := { s with sent := s.sent ++ [m], pc := pc } with hu
  have hserver : serverContents base u
      = Function.update (serverContents base s) (removeBasePath p base) (some c) := by
    simp only [hu, serverContents, List.foldl_append, List.foldl_cons, List.foldl_nil, hm]
  constructor
  case names => exact h.names
  case fits => exact h.fits
  case one => exact h.one
  case live => exact h.live
  case range => exact h.range
  case room => exact h.room
  case listed => exact h.listed
  case pcOk => exact hok u rfl rfl (by rw [hserver, Function.update_self])
  case known =>
    intro r hr
    by_cases hrp : r = removeBasePath p base
    · have hb : base ++ removeBasePath p base = p := filePaths_below h.names p hp
      rw [hrp, hb]
      exact hp
    · rw [hserver, Function.update_of_ne hrp] at hr
      exact h.known r hr
  case due =>
    rintro f hf ⟨c', hc', hne⟩
    by_cases hfp : f.path = p
    · rw [hserver, hfp, Function.update_self] at hc'
      cases hc'
      exact .inr (hfp ▸ hsame f hf hfp hne)
    · have hrel : removeBasePath f.path base ≠ removeBasePath p base := by
        intro heq
        have hbf : base ++ removeBasePath f.path base = f.path :=
          filePaths_below h.names _ (List.mem_map_of_mem hf)
        have hbp : base ++ removeBasePath p base = p := filePaths_below h.names p hp
        exact hfp (by rw [← hbf, heq, hbp])
      rw [hserver, Function.update_of_ne hrel] at hc'
      rcases h.due f hf ⟨c', hc', hne⟩ with hnew | hhf
      · exact .inl hnew
      · exact (hother _ hfp hhf).elim

theorem Recorded.created (h : Recorded base s) {p : Path} (hpc : s.pc = .created p) (n : ℤ) :
    Recorded base { s with
      sent := s.sent ++ [.create (removeBasePath p base) n], pc := .createRescan p } := by
  have hp : p ∈ filePaths base s.tree := by simpa [hpc, PcOk] using h.pcOk
  refine h.message (c := []) hp (fun _ => rfl) ?_ (by simp [hpc, Half]) fun _ _ _ _ => rfl
  intro u ht _ hc
  exact ⟨ht ▸ hp, hc⟩

theorem Recorded.updated (h : Recorded base s) {i : ℕ} (hpc : s.pc = .updated i) :
    Recorded base (s.reportUpdate base i) := by
  have hi : i < s.count := by simpa [hpc, PcOk] using h.pcOk
  have hrange := h.range
  obtain ⟨f, hf, hp, -⟩ := h.listed i (by omega)
  simp only [Client.reportUpdate, h.live, hp, stat_file h.names hf]
  refine h.message (List.mem_map_of_mem hf) (c := f.content) (fun _ => rfl)
    (fun _ _ _ _ => trivial) ?_ ?_
  · intro q hq
    simp only [hpc, Half, hp]
    exact hq.symm
  · intro g hg hgp hne
    exact (hne (by rw [node_unique h.names (mem_nodes hg) (mem_nodes hf) hgp])).elim

theorem Recorded.rescan (h : Recorded base s) {p : Path} (hpc : s.pc = .createRescan p)
    {addr : ℕ} {junk : Block} (hok : Timely base s (.rescan addr junk)) :
    Recorded base { s with
      heap := Function.update (Function.update s.heap s.param none) s.param
        (some (scan base s.tree junk).files)
      globCount := (scan base s.tree junk).count
      pc := .checkDelete } := by
  simp only [Timely, RescanTimely, hpc] at hok
  obtain ⟨-, hempty, hold⟩ := hok
  have hroom := h.room
  have hrange := h.range
  rw [← scan_count_min h.fits (b := junk)] at hroom
  have htable : Client.table { s with
      heap := Function.update (Function.update s.heap s.param none) s.param
        (some (scan base s.tree junk).files)
      globCount := (scan base s.tree junk).count
      pc := .checkDelete } = (scan base s.tree junk).files := by simp [Client.table]
  constructor
  case names => exact h.names
  case fits => exact h.fits
  case one => exact h.one
  case live => rw [htable]; exact Function.update_self ..
  case range => exact hrange.trans hroom
  case room => exact (scan_count_min h.fits).le
  case known => exact h.known
  case pcOk => trivial
  case listed =>
    intro i hi
    rw [htable]
    obtain ⟨f, hf, hinfo⟩ := scan_listed h.fits hi
    exact ⟨f, hf, by rw [hinfo]; rfl, by rw [hinfo]; exact le_rfl⟩
  case due =>
    intro f hf hst
    rcases h.due f hf hst with ⟨i, hi, hp, -, hlt⟩ | hhf
    · exact absurd (hold i hi f hf hp.symm) (by omega)
    · -- the reported file: empty on both sides
      simp only [hpc, Half] at hhf
      obtain ⟨c, hc, hne⟩ := hst
      have hsent : serverContents base s (removeBasePath p base) = some [] := by
        have hpcOk := h.pcOk
        simp only [hpc, PcOk] at hpcOk
        exact hpcOk.2
      have hc' : serverContents base s (removeBasePath f.path base) = some c := hc
      rw [← hhf, hsent] at hc'
      cases hc'
      exact (hne (hempty f hf hhf.symm).symm).elim

theorem Recorded.grow (h : Recorded base s) {tree : Listing} (hnames : tree.NamesOk)
    (hfits : tree.Fits base) (hgrow : Grows base s (.env tree)) (hok : Timely base s (.env tree)) :
    Recorded base { s with tree := tree } := by
  have hsub : ∀ p ∈ filePaths base s.tree, p ∈ filePaths base tree := by
    intro p hp
    obtain ⟨f, hf, rfl⟩ := List.mem_map.mp hp
    obtain ⟨g, hg, hgp, -⟩ := hgrow f hf
    exact hgp ▸ List.mem_map_of_mem hg
  have hlen := (List.subperm_of_subset (filePaths_nodup h.names) hsub).length_le
  have hroom := h.room
  constructor
  case names => exact hnames
  case fits => exact hfits
  case one => exact h.one
  case live => exact h.live
  case range => exact h.range
  case room =>
    dsimp only
    omega
  case known => exact fun r hr => hsub _ (h.known r hr)
  case pcOk =>
    have hpcOk := h.pcOk
    cases hpc : s.pc <;> simp only [hpc, PcOk] at hpcOk ⊢
    case created => exact hsub _ hpcOk
    case createRescan => exact ⟨hsub _ hpcOk.1, hpcOk.2⟩
    all_goals exact hpcOk
  case listed =>
    intro i hi
    obtain ⟨f, hf, hp, ht⟩ := h.listed i hi
    obtain ⟨g, hg, hgp, hsame | hlt⟩ := hgrow f hf
    · exact ⟨g, hg, hp.trans hgp.symm, hsame ▸ ht⟩
    · exact ⟨g, hg, hp.trans hgp.symm, ht.trans hlt.le⟩
  case due =>
    rintro g hg ⟨c, hc, hne⟩
    have hserver : serverContents base s (removeBasePath g.path base) = some c := hc
    have hb : base ++ removeBasePath g.path base = g.path :=
      filePaths_below hnames _ (List.mem_map_of_mem hg)
    have hold := h.known _ (by rw [hserver]; simp)
    rw [hb] at hold
    obtain ⟨f, hf, hfp⟩ := List.mem_map.mp hold
    obtain ⟨g', hg', hgp', hor⟩ := hgrow f hf
    have hgg := node_unique hnames (mem_nodes hg') (mem_nodes hg) (hgp'.trans hfp)
    subst hgg
    by_cases hsame : g' = f
    · subst hsame
      exact h.due g' hf ⟨c, hserver, hne⟩
    have hlt := hor.resolve_left hsame
    rcases hok f hf g' hg hgp' hsame (by rw [hfp, hserver]; simp) with hpc | ⟨i, hi, hip, hnz⟩
    · right
      show Half s.table s.pc g'.path
      rw [hpc, hfp]
      exact rfl
    · left
      have hrange := h.range
      obtain ⟨f', hf', hfp', ht⟩ := h.listed i (by omega)
      have hff := node_unique h.names (mem_nodes hf') (mem_nodes hf) (hfp'.symm.trans hip)
      subst hff
      exact ⟨i, hi, hip.trans hfp, hnz, ht.trans_lt hlt⟩

theorem Recorded.keep (h : Recorded base s) {a : Action} (hgrow : Grows base s a)
    (hok : Timely base s a) (hn : (watch base).next s a = some t) : Recorded base t := by
  cases watch_move hn with
  | env hnames hfit => exact h.grow hnames hfit hgrow hok
  | checkCreate hpc => exact h.checkCreate hpc
  | created hpc => exact h.created hpc _
  | checkDelete hpc => exact h.checkDelete hpc
  | deleted hpc => exact absurd h.pcOk (by simp [hpc, PcOk])
  | checkUpdate hpc => exact h.checkUpdate hpc
  | statEntry hpc => exact h.statEntry hpc
  | updated hpc => exact h.updated hpc
  | lost hpc hfreed =>
    rcases hpc with ⟨-, rfl⟩ | ⟨⟨p, hpc⟩, -⟩
    · rw [h.live] at hfreed
      contradiction
    · exact absurd h.pcOk (by simp [hpc, PcOk])
  | @createRescan p addr junk hpc hlive =>
    have haddr : addr = s.param := by
      have := hok
      simp only [Timely, RescanTimely, hpc] at this
      exact this.1
    subst haddr
    exact h.rescan hpc hok
  | deleteRescan hpc hlive => exact absurd h.pcOk (by simp [hpc, PcOk])

theorem recorded_start (hs : (watch base).start s) : Recorded base s := by
  obtain ⟨hok, hfit, hsync, hsent, hpc, hone, hcount, junk, hheap, hglob⟩ := hs
  have htable : s.table = (scan base s.tree junk).files := by
    simp [Client.table, hone, hheap]
  have hserver : serverContents base s = fileContents base s.tree := by
    simp [serverContents, hsent, hsync]
  constructor
  case names => exact hok
  case fits => exact hfit
  case one => exact hone
  case live => rw [htable, hone, hheap]
  case range => exact hcount.le
  case room => exact (hglob.trans (scan_count_min hfit)).le
  case pcOk => simp [hpc, PcOk]
  case listed =>
    intro i hi
    rw [htable]
    obtain ⟨f, hf, hinfo⟩ := scan_listed hfit (hglob ▸ hi)
    exact ⟨f, hf, by rw [hinfo]; rfl, by rw [hinfo]; exact le_rfl⟩
  case known =>
    intro r hr
    obtain ⟨c, hc⟩ := Option.ne_none_iff_exists'.mp (hserver ▸ hr)
    obtain ⟨f, hf, hp, -⟩ := fileContents_some hc
    exact hp ▸ List.mem_map_of_mem hf
  case due =>
    rintro f hf ⟨c, hc, hne⟩
    rw [hserver, fileContents_file hok hf] at hc
    exact (hne (Option.some.inj hc).symm).elim

theorem recorded_inductive (base : Path) :
    (watch base).Inductive (GrowsTimely base) (Recorded base) where
  base _ hs := recorded_start hs
  keep _ _ _ h ha hn := h.keep ha.1 ha.2 hn

end Steps

/-! ### A silent iteration -/

/-- The iteration still has the file's outdated entry before it, or a message
to send. -/
def Ahead (s : Client) (f : Inode) : Prop :=
  match s.pc with
  | .created _ | .updated _ => True
  | .checkDelete => ∃ i < s.count, Newer s.table f i
  | .checkUpdate j | .statEntry j => ∃ i < s.count, j ≤ i ∧ Newer s.table f i
  | _ => False

section Silent
variable {base : Path} {s t u : Client} {f : Inode}

theorem Recorded.ahead_checkCreate (h : Recorded base s)
    (hold : ∃ i < s.count, Newer s.table f i) : Ahead (s.checkCreate base) f := by
  simp only [Client.checkCreate, readTable_of_live h.live]
  split
  · exact hold
  cases firstMissing (scan base s.tree temp).entries (s.table.entries s.globCount) with
  | none => exact hold
  | some e => trivial

theorem Recorded.ahead_statEntry (h : Recorded base s) (hf : f ∈ s.tree.files base) {j : ℕ}
    (hold : ∃ i < s.count, j ≤ i ∧ Newer s.table f i) : Ahead (s.statEntry base j) f := by
  obtain ⟨i, hi, hji, hnew⟩ := hold
  simp only [Client.statEntry, h.live]
  cases hstat : s.tree.stat base (s.table j).filepath with
  | none =>
    refine ⟨i, hi, Nat.lt_of_le_of_ne hji fun heq => ?_, hnew⟩
    subst heq
    rw [hnew.1, stat_file h.names hf] at hstat
    contradiction
  | some g =>
    dsimp only
    split
    · next hzero =>
      have hne : j ≠ i := fun heq => hnew.2.1 (heq ▸ hzero)
      refine ⟨i, hi, by omega, ?_⟩
      simpa only [Newer, Client.table, Function.update_self, Option.getD_some,
        Function.update_of_ne hne.symm] using hnew
    split
    · trivial
    · next hle =>
      refine ⟨i, hi, Nat.lt_of_le_of_ne hji fun heq => ?_, hnew⟩
      subst heq
      rw [hnew.1, stat_file h.names hf] at hstat
      cases hstat
      exact hle hnew.2.2

/-- One step of an iteration: the outdated entry stays ahead or a message goes out. -/
theorem Recorded.ahead_step (h : Recorded base s) (hf : f ∈ s.tree.files base) (hold : Ahead s f)
    {a : Action} (hl : a.IsLoop) (hn : (watch base).next s a = some u) :
    Ahead u f ∨ s.sent.length < u.sent.length := by
  obtain ⟨-, hn⟩ := next_poll_of hl hn fun p =>
    ⟨fun hpc => by simp [Ahead, hpc] at hold, fun hpc => by simp [Ahead, hpc] at hold⟩
  simp only [Client.poll] at hn
  cases hpc : s.pc with
  | created p =>
    simp only [hpc, Option.some.injEq] at hn
    exact .inr (by simp [← hn])
  | updated i =>
    simp only [hpc, Option.some.injEq, Client.reportUpdate, h.live] at hn
    exact .inr (by simp [← hn])
  | checkDelete =>
    simp only [hpc, Option.some.injEq] at hn
    have hroom := h.room
    rw [← scan_count_min h.fits (b := temp)] at hroom
    simp only [Client.checkDelete, if_pos hroom] at hn
    simp only [Ahead, hpc] at hold
    obtain ⟨i, hi, hnew⟩ := hold
    subst hn
    exact .inl ⟨i, hi, Nat.zero_le _, hnew⟩
  | checkUpdate j =>
    simp only [hpc, Option.some.injEq] at hn
    simp only [Ahead, hpc] at hold
    obtain ⟨i, hi, hji, hnew⟩ := hold
    have hrange := h.range
    obtain ⟨g, hg, hgp, -⟩ := h.listed j (by omega)
    have hlt : ¬ j ≥ s.count := by omega
    simp only [Client.checkUpdate, if_neg hlt, h.live, hgp, stat_file h.names hg] at hn
    subst hn
    exact .inl ⟨i, hi, hji, hnew⟩
  | statEntry j =>
    simp only [hpc, Option.some.injEq] at hn
    simp only [Ahead, hpc] at hold
    exact .inl (hn ▸ h.ahead_statEntry hf hold)
  | _ => simp [Ahead, hpc] at hold

theorem Recorded.quiet (h : Recorded base s)
    (hq : Quiet base (GrowsTimely base) s t)
    (hf : f ∈ s.tree.files base) : ¬ ∃ i < s.count, Newer s.table f i := by
  intro hold
  obtain ⟨hhead, hagain, hloop, hsilent⟩ := hq
  obtain ⟨a, u, ⟨hl, ha⟩, hn, hrest⟩ := hloop.first
  obtain ⟨-, hu⟩ := next_poll_of hl hn (by simp [hhead])
  simp only [Client.poll, hhead, Option.some.injEq] at hu
  have grows : ∀ v w (b : Action), (watch base).next v b = some w →
      v.sent.length ≤ w.sent.length := by
    intro v w b hw
    obtain ⟨ms, hms⟩ := next_sent hw
    simp [hms]
  have hend := hrest.keep (I := fun v => Recorded base v ∧ v.tree = s.tree ∧
      s.sent.length ≤ v.sent.length ∧ (Ahead v f ∨ s.sent.length < v.sent.length))
    ⟨h.keep ha.1 ha.2 hn, (next_tree hl hn).1, grows _ _ _ hn,
      .inl (hu ▸ h.ahead_checkCreate hold)⟩
    (by
      rintro v b w ⟨hv, htree, hle, hor⟩ ⟨hlb, hb⟩ hw
      have hle' := grows _ _ _ hw
      refine ⟨hv.keep hb.1 hb.2 hw, (next_tree hlb hw).1.trans htree, hle.trans hle', ?_⟩
      rcases hor with hah | hlong
      · exact (hv.ahead_step (htree ▸ hf) hah hlb hw).imp id hle.trans_lt
      · exact .inr (hlong.trans_le hle'))
  obtain ⟨-, -, -, hah | hlong⟩ := hend
  · simp [Ahead, hagain] at hah
  · exact absurd hlong (by simp [hsilent])

end Silent

/-- While files are rewritten in the scanned range only and every rescan finds
the new file empty and the others up to date, a silent iteration means equal
contents. -/
theorem contents_tracked (base : Path) (s t : Client)
    (hr : (watch base).Reaches (GrowsTimely base) s)
    (hq : Quiet base (GrowsTimely base) s t) (r : Path) (c c' : Bytes)
    (hserver : serverContents base t r = some c) (hclient : fileContents base t.tree r = some c') :
    c = c' := by
  have h := (recorded_inductive base).holds hr
  obtain ⟨a, u, ⟨hl, ha⟩, hn, hrest⟩ := hq.loop.first
  have htree := (path₀_tree hrest).1.trans (next_tree hl hn).1
  have hsynced := (path₀_tree hrest).2.trans (next_tree hl hn).2
  have hsame : serverContents base t = serverContents base s := by
    simp only [serverContents, hq.silent, hsynced]
  obtain ⟨f, hf, hp, rfl⟩ := fileContents_some hclient
  rw [htree] at hf
  by_contra hne
  have hrel : removeBasePath f.path base = r := by
    have hb : base ++ removeBasePath f.path base = f.path :=
      filePaths_below h.names _ (List.mem_map_of_mem hf)
    exact List.append_cancel_left (hb.trans hp)
  rcases h.due f hf ⟨c, by rw [hrel, ← hsame, hserver], hne⟩ with hold | hhf
  · exact h.quiet hq hf hold
  · simp [hq.head, Half] at hhf

def oneFile (name : Name) (mtime : ℤ) (content : Bytes) : Listing := .file name mtime content .nil

def rewriteSent : Client :=
  (((watch watchedDir).guarded (GrowsTimely watchedDir)).run
    (.atStart watchedDir (oneFile (utf8 "a") 1 (utf8 "old")))
    [.env (oneFile (utf8 "a") 2 (utf8 "new")), .poll, .poll, .poll, .poll, .poll]).get (by decide)

theorem rewriteSent_tracked : ∃ t, Quiet watchedDir (GrowsTimely watchedDir) rewriteSent t ∧
    t.sent = [.update 3 (utf8 "/a") (utf8 "new")] ∧
    ∀ r c c', serverContents watchedDir t r = some c →
      fileContents watchedDir t.tree r = some c' → c = c' := by
  have hs : (watch watchedDir).Reaches (GrowsTimely watchedDir) rewriteSent :=
    .run (.start (atStart_start _ _ (by decide) (by decide))) _ (Option.some_get _).symm
  have hrun : (((watch watchedDir).guarded fun s a => a.IsLoop ∧
      GrowsTimely watchedDir s a).run rewriteSent
      [.poll, .poll, .poll, .poll, .poll]).map (fun t => (t.pc, t.sent))
      = some (.checkCreate, [.update 3 (utf8 "/a") (utf8 "new")]) := by decide
  obtain ⟨t, ht, hf⟩ := Option.map_eq_some_iff.mp hrun
  obtain ⟨hpc, hsent⟩ := Prod.mk.inj hf
  have hq : Quiet watchedDir (GrowsTimely watchedDir) rewriteSent t :=
    ⟨by decide, hpc, .of_run _ ht, hsent.trans (by decide)⟩
  exact ⟨t, hq, hsent, contents_tracked _ _ t hs hq⟩

def ContentsTracked (base : Path) : Prop :=
  ∀ s t, (watch base).Reaches (Grows base) s → Quiet base (Grows base) s t →
    ∀ r c c', serverContents base t r = some c → fileContents base t.tree r = some c' → c = c'

/-- A file that has content when it is first seen: CREATE makes it empty on the
server, and the rescan records the time of that content. -/
theorem content_missed : ¬ ContentsTracked watchedDir := by
  intro h
  let s : Client := (((watch watchedDir).guarded (Grows watchedDir)).run
    (.atStart watchedDir .nil)
    [.env (oneFile (utf8 "a") 1 (utf8 "x")), .poll, .poll, .rescan 0 temp, .poll, .poll]).get
      (by decide)
  have hs : (watch watchedDir).Reaches (Grows watchedDir) s :=
    .run (.start (atStart_start _ _ (by decide) (by decide))) _ (Option.some_get _).symm
  have hrun : (((watch watchedDir).guarded fun s a => a.IsLoop ∧ Grows watchedDir s a).run s
      [.poll, .poll, .poll]).map (fun t => (t.pc, t.sent, serverContents watchedDir t (utf8 "/a"),
        fileContents watchedDir t.tree (utf8 "/a")))
      = some (.checkCreate, [.create (utf8 "/a") 1], some [], some (utf8 "x")) := by decide
  obtain ⟨t, ht, hf⟩ := Option.map_eq_some_iff.mp hrun
  simp only [Prod.mk.injEq] at hf
  obtain ⟨hpc, hsent, hserver, hclient⟩ := hf
  have hq : Quiet watchedDir (Grows watchedDir) s t :=
    ⟨by decide, hpc, .of_run _ ht, hsent.trans (by decide)⟩
  exact absurd (h s t hs hq _ _ _ hserver hclient) (by decide)

end AdvancedCProjects.Bibak
