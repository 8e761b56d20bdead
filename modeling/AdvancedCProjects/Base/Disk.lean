import Mathlib.Data.List.AList
import Mathlib.Data.List.Induction

/-!
# Trees of directories and files

A disk maps the names on the way from the root to what is found there. Its
entries have an order, and a directory is read in that order.
-/

namespace Base

inductive Node (α : Type) where
  | dir
  | file (content : α)
  deriving DecidableEq

inductive Errno where
  | noEntry
  | notDirectory
  | alreadyExists
  | isDirectory
  | notEmpty
  | busy
  deriving DecidableEq

/-- One component of a path: the directory itself, the one above, or a name. -/
inductive Component (ν : Type) where
  | here
  | up
  | down (name : ν)
  deriving DecidableEq

def Component.next {ν : Type} (p : List ν) : Component ν → List ν
  | here => p
  | up => p.dropLast
  | down name => p ++ [name]

/-- The places that a path goes through, from `p` on. -/
def Component.places {ν : Type} (p : List ν) : List (Component ν) → List (List ν)
  | [] => [p]
  | c :: path => p :: places (c.next p) path

namespace Component
variable {ν : Type} {p q : List ν}

theorem self_mem_places (p : List ν) (path : List (Component ν)) : p ∈ places p path := by
  cases path <;> exact List.mem_cons_self

theorem mem_places {path : List (Component ν)} :
    q ∈ places p path ↔ ∃ i, q = (path.take i).foldl next p := by
  induction path generalizing p with
  | nil => simp [places]
  | cons c path ih =>
    rw [places, List.mem_cons, ih]
    constructor
    · rintro (rfl | ⟨i, rfl⟩)
      · exact ⟨0, rfl⟩
      · exact ⟨i + 1, rfl⟩
    · rintro ⟨i, rfl⟩
      cases i with
      | zero => exact .inl rfl
      | succ i => exact .inr ⟨i, rfl⟩

theorem mem_places_of_take {path : List (Component ν)} {i : ℕ} (h : q ∈ places p (path.take i)) :
    q ∈ places p path := by
  obtain ⟨j, rfl⟩ := mem_places.mp h
  apply mem_places.mpr
  apply Exists.intro (min j i)
  rw [List.take_take]

theorem last_mem_places (p : List ν) (path : List (Component ν)) :
    path.foldl next p ∈ places p path := by
  apply mem_places.mpr
  apply Exists.intro path.length
  rw [List.take_length]

theorem mem_places_here {path : List (Component ν)} :
    q ∈ places p (path ++ [here]) ↔ q ∈ places p path := by
  induction path generalizing p with
  | nil => simp [places, next]
  | cons c path ih => rw [List.cons_append, places, places, List.mem_cons, List.mem_cons, ih]

end Component

/-- The root is a directory, and so is whatever has an entry in it. -/
structure Disk (ν α : Type) [DecidableEq ν] where
  entries : AList fun _ : List ν => Node α
  root : entries.lookup [] = some .dir
  closed : ∀ p n, p ++ [n] ∈ entries → entries.lookup p = some .dir

namespace Disk
variable {ν α : Type} [DecidableEq ν] (d : Disk ν α) {p q r : List ν}

def node (p : List ν) : Option (Node α) := d.entries.lookup p

def blank : Disk ν α where
  entries := AList.singleton [] .dir
  root := rfl
  closed p n hmem := by
    rw [AList.mem_keys, AList.keys_singleton, List.mem_singleton] at hmem
    exact absurd hmem (by simp)

@[simp] theorem node_root : d.node [] = some .dir := d.root

theorem node_blank : (blank : Disk ν α).node p = if p = [] then some .dir else none := by
  split
  · next hp => rw [hp, node_root]
  · next hp =>
    refine AList.lookup_eq_none.mpr fun hmem => hp ?_
    rwa [blank, AList.mem_keys, AList.keys_singleton, List.mem_singleton] at hmem

theorem mem_entries : p ∈ d.entries ↔ d.node p ≠ none := by
  unfold node
  rw [Ne, AList.lookup_eq_none, not_not]

theorem above (h : d.node (p ++ r) ≠ none) (hr : r ≠ []) : d.node p = some .dir := by
  induction r using List.reverseRecOn with
  | nil => exact (hr rfl).elim
  | append_singleton r n ih =>
    have hparent : d.node (p ++ r) = some .dir :=
      d.closed _ n (d.mem_entries.mpr (by rwa [List.append_assoc]))
    by_cases hnil : r = []
    · simpa [hnil] using hparent
    · exact ih (by simp [hparent]) hnil

theorem there {x : Node α} (h : d.node p = some x) : d.node p ≠ none := by
  rw [h]
  exact Option.some_ne_none x

theorem node_front (h : d.node (p ++ r) ≠ none) : d.node p ≠ none := by
  by_cases hr : r = []
  · rwa [hr, List.append_nil] at h
  · exact d.there (d.above h hr)

theorem node_dropLast (h : d.node p ≠ none) : d.node p.dropLast = some .dir := by
  by_cases hp : p = []
  · simp [hp]
  · rw [← List.dropLast_append_getLast hp] at h
    exact d.above h (List.cons_ne_nil _ _)

/-! ### Reading a directory -/

def children (p : List ν) : List ν :=
  d.entries.keys.filterMap fun q => if q.dropLast = p then q.getLast? else none

theorem mem_children {n : ν} : n ∈ d.children p ↔ d.node (p ++ [n]) ≠ none := by
  rw [children, List.mem_filterMap, ← d.mem_entries, AList.mem_keys]
  constructor
  · rintro ⟨q, hq, hlast⟩
    split at hlast
    · next hp =>
      obtain ⟨init, rfl⟩ := List.getLast?_eq_some_iff.mp hlast
      rw [List.dropLast_concat] at hp
      rwa [← hp]
    · contradiction
  · intro h
    exact ⟨p ++ [n], h, by simp⟩

theorem children_nodup : (d.children p).Nodup := by
  refine List.Nodup.filterMap (fun q q' n hn hn' => ?_) d.entries.keys_nodup
  simp only [Option.mem_def, Option.ite_none_right_eq_some] at hn hn'
  obtain ⟨init, rfl⟩ := List.getLast?_eq_some_iff.mp hn.2
  obtain ⟨init', rfl⟩ := List.getLast?_eq_some_iff.mp hn'.2
  simp only [List.dropLast_concat] at hn hn'
  rw [hn.1, hn'.1]

theorem node_of_empty (h : d.children p = []) (hr : r ≠ []) : d.node (p ++ r) = none := by
  by_contra hnode
  cases r with
  | nil => contradiction
  | cons n r =>
    have hn : d.node (p ++ [n]) ≠ none := by
      by_cases hnil : r = []
      · rwa [hnil] at hnode
      · rw [← List.singleton_append, ← List.append_assoc] at hnode
        simp [d.above hnode hnil]
    have hmem := d.mem_children.mpr hn
    rw [h] at hmem
    exact List.not_mem_nil hmem

def depth : ℕ := (d.entries.keys.map List.length).foldr max 0

theorem length_le_depth (h : d.node p ≠ none) : p.length ≤ d.depth := by
  have hmem : p ∈ d.entries.keys := d.mem_entries.mpr h
  unfold depth
  generalize d.entries.keys = keys at hmem ⊢
  induction keys with
  | nil => contradiction
  | cons q keys ih =>
    rw [List.map_cons, List.foldr_cons]
    rcases List.mem_cons.mp hmem with rfl | hmem
    · exact Nat.le_max_left _ _
    · exact Nat.le_trans (ih hmem) (Nat.le_max_right _ _)

/-- All names below a directory, depth first. -/
def below : ℕ → List ν → List (List ν)
  | 0, _ => []
  | fuel + 1, p => (d.children p).flatMap fun n => [n] :: (below fuel (p ++ [n])).map (n :: ·)

/-- Deeper than the disk there is nothing to come. -/
theorem below_succ (fuel : ℕ) (hfuel : d.depth < p.length + fuel) :
    d.below (fuel + 1) p = d.below fuel p := by
  induction fuel generalizing p with
  | zero =>
    have hempty : d.children p = [] := by
      refine List.eq_nil_iff_forall_not_mem.mpr fun n hn => ?_
      have hlen := d.length_le_depth (d.mem_children.mp hn)
      rw [List.length_append] at hlen
      omega
    show (d.children p).flatMap _ = []
    rw [hempty, List.flatMap_nil]
  | succ fuel ih =>
    rw [below, below]
    refine List.flatMap_congr fun n _ => ?_
    rw [ih (by rw [List.length_append, List.length_singleton]; omega)]

theorem below_stable {fuel fuel' : ℕ} (hle : fuel ≤ fuel') (hfuel : d.depth < p.length + fuel) :
    d.below fuel' p = d.below fuel p := by
  induction hle with
  | refl => rfl
  | @step fuel' hle ih =>
    have hle : fuel ≤ fuel' := hle
    rw [d.below_succ fuel' (by omega), ih]

theorem children_file {content : α} (h : d.node p = some (.file content)) : d.children p = [] := by
  refine List.eq_nil_iff_forall_not_mem.mpr fun n hn => ?_
  have hdir := d.above (d.mem_children.mp hn) (List.cons_ne_nil _ _)
  simp [h] at hdir

theorem below_file {content : α} (h : d.node p = some (.file content)) (fuel : ℕ) :
    d.below fuel p = [] := by
  cases fuel with
  | zero => rfl
  | succ fuel => rw [below, d.children_file h, List.flatMap_nil]

/-- Every entry below `p` stands once in the list, with no directory behind
anything it contains. -/
structure Lists (p : List ν) (keys : List (List ν)) : Prop where
  mem : ∀ r, r ∈ keys ↔ r ≠ [] ∧ d.node (p ++ r) ≠ none
  before : keys.Pairwise fun r s => ¬ s <+: r

theorem Lists.nodup {d : Disk ν α} {keys : List (List ν)} (h : d.Lists p keys) : keys.Nodup :=
  h.before.imp fun {r s} (hno : ¬ s <+: r) (heq : r = s) => hno (heq ▸ List.prefix_rfl)

theorem Lists.length_lt {d d' : Disk ν α} {keys keys' : List (List ν)} (h : d.Lists p keys)
    (h' : d'.Lists p keys') (hkeep : ∀ q, d.node q ≠ none → d'.node q ≠ none) (hr : r ≠ [])
    (hold : d.node (p ++ r) = none) (hnew : d'.node (p ++ r) ≠ none) :
    keys.length < keys'.length := by
  have hnot : r ∉ keys := fun hmem => ((h.mem r).mp hmem).2 hold
  have hsub : r :: keys ⊆ keys' := by
    intro s hs
    rcases List.mem_cons.mp hs with rfl | hs
    · exact (h'.mem s).mpr ⟨hr, hnew⟩
    · obtain ⟨hne, hnode⟩ := (h.mem s).mp hs
      exact (h'.mem s).mpr ⟨hne, hkeep _ hnode⟩
  have hnodup : (r :: keys).Nodup := List.nodup_cons.mpr ⟨hnot, h.nodup⟩
  exact (List.subperm_of_subset hnodup hsub).length_le

theorem Lists.dropLast_mem {d : Disk ν α} {done todo : List (List ν)}
    (h : d.Lists p (done ++ r :: todo)) (hne : r.dropLast ≠ []) : r.dropLast ∈ done := by
  obtain ⟨hr, hnode⟩ := (h.mem r).mp (by simp)
  have hdir := d.node_dropLast hnode
  rw [List.dropLast_append_of_ne_nil hr] at hdir
  have hmem := (h.mem r.dropLast).mpr ⟨hne, by simp [hdir]⟩
  rcases List.mem_append.mp hmem with hdone | hmem
  · exact hdone
  rcases List.mem_cons.mp hmem with heq | htodo
  · have hlen := congrArg List.length heq
    have hpos := List.length_pos_iff.mpr hr
    rw [List.length_dropLast] at hlen
    omega
  · have hbehind := (List.pairwise_append.mp h.before).2.1
    exact (List.rel_of_pairwise_cons hbehind htodo (List.dropLast_prefix r)).elim

theorem below_lists (fuel : ℕ) (hfuel : d.depth < p.length + fuel) :
    d.Lists p (d.below fuel p) := by
  induction fuel generalizing p with
  | zero =>
    refine ⟨fun r => ⟨fun h => absurd h List.not_mem_nil, fun ⟨_, hr⟩ => ?_⟩, List.Pairwise.nil⟩
    have hlen := d.length_le_depth hr
    rw [List.length_append] at hlen
    omega
  | succ fuel ih =>
    have sub (n : ν) : d.Lists (p ++ [n]) (d.below fuel (p ++ [n])) := by
      refine ih ?_
      rw [List.length_append, List.length_singleton]
      omega
    constructor
    case mem =>
      intro r
      simp only [below, List.mem_flatMap, List.mem_cons, List.mem_map, d.mem_children]
      constructor
      · rintro ⟨n, hn, rfl | ⟨s, hs, rfl⟩⟩
        · exact ⟨List.cons_ne_nil _ _, hn⟩
        · have hnode := (((sub n).mem s).mp hs).2
          exact ⟨List.cons_ne_nil _ _, by simpa using hnode⟩
      · rintro ⟨hr, hnode⟩
        cases r with
        | nil => contradiction
        | cons n s =>
          rw [← List.singleton_append, ← List.append_assoc] at hnode
          by_cases hs : s = []
          · exact ⟨n, by simpa [hs] using hnode, .inl (by rw [hs])⟩
          · have hdir := d.above hnode hs
            exact ⟨n, by simp [hdir], .inr ⟨s, ((sub n).mem s).mpr ⟨hs, hnode⟩, rfl⟩⟩
    case before =>
      rw [below, List.pairwise_flatMap]
      refine ⟨fun n _ => ?_, d.children_nodup.imp fun {n m} hne r hr s hs hpre => ?_⟩
      · refine List.pairwise_cons.mpr ⟨fun s hs hpre => ?_, ?_⟩
        · obtain ⟨t, ht, rfl⟩ := List.mem_map.mp hs
          have ht := (((sub n).mem t).mp ht).1
          rw [List.cons_prefix_cons, List.prefix_nil] at hpre
          exact ht hpre.2
        · refine List.pairwise_map.mpr ((sub n).before.imp fun {r s} hno hpre => ?_)
          exact hno (List.cons_prefix_cons.mp hpre).2
      · -- below different names
        have head (n : ν) (r : List ν) (hr : r ∈ [n] :: (d.below fuel (p ++ [n])).map (n :: ·)) :
            ∃ t, r = n :: t := by
          rcases List.mem_cons.mp hr with rfl | hr
          · exact ⟨[], rfl⟩
          · obtain ⟨t, _, rfl⟩ := List.mem_map.mp hr
            exact ⟨t, rfl⟩
        obtain ⟨t, rfl⟩ := head n r hr
        obtain ⟨u, rfl⟩ := head m s hs
        exact hne (List.cons_prefix_cons.mp hpre).1.symm

/-! ### Paths -/

/-- The kernel looks for the next component in a directory only. -/
def walk : List ν → List (Component ν) → Except Errno (List ν)
  | p, [] => .ok p
  | p, c :: path => match d.node p with
    | none => .error .noEntry
    | some (.file _) => .error .notDirectory
    | some .dir => walk (c.next p) path

theorem walk_append (p : List ν) (path path' : List (Component ν)) :
    d.walk p (path ++ path') = (d.walk p path).bind fun q => d.walk q path' := by
  induction path generalizing p with
  | nil => rfl
  | cons c path ih =>
    simp only [List.cons_append, walk]
    cases d.node p with
    | none => rfl
    | some x =>
      cases x with
      | dir => exact ih _
      | file content => rfl

theorem walk_down (h : r = [] ∨ d.node (p ++ r.dropLast) = some .dir) :
    d.walk p (r.map .down) = .ok (p ++ r) := by
  induction r generalizing p with
  | nil => simp [walk]
  | cons n r ih =>
    have hnode : d.node (p ++ (n :: r).dropLast) = some .dir :=
      h.resolve_left (List.cons_ne_nil _ _)
    have hp : d.node p = some .dir := by
      by_cases hnil : (n :: r).dropLast = []
      · simpa [hnil] using hnode
      · exact d.above (by simp [hnode]) hnil
    simp only [List.map_cons, walk, hp, Component.next]
    rw [ih, List.append_assoc, List.singleton_append]
    cases r with
    | nil => exact .inl rfl
    | cons m r => exact .inr (by simpa using hnode)

theorem walk_down_eq (h : d.walk p (r.map .down) = .ok q) : q = p ++ r := by
  induction r generalizing p with
  | nil =>
    obtain rfl := Except.ok.inj h
    exact (List.append_nil _).symm
  | cons n r ih =>
    rw [List.map_cons] at h
    unfold walk at h
    split at h
    · contradiction
    · contradiction
    · have heq := ih h
      rwa [Component.next, List.append_assoc, List.singleton_append] at heq

theorem walk_split {path path' : List (Component ν)} (h : d.walk p (path ++ path') = .ok q)
    (hdir : d.node q = some .dir) : ∃ m, d.walk p path = .ok m ∧ d.node m = some .dir := by
  rw [walk_append] at h
  cases hwalk : d.walk p path with
  | error e =>
    rw [hwalk] at h
    contradiction
  | ok m =>
    refine ⟨m, rfl, ?_⟩
    rw [hwalk] at h
    have h : d.walk m path' = .ok q := h
    cases path' with
    | nil =>
      obtain rfl := Except.ok.inj h
      exact hdir
    | cons c path' =>
      unfold walk at h
      split at h
      · contradiction
      · contradiction
      · next hm => exact hm

/-- Components that stay where they are can be left out. -/
theorem walk_filter {β : Type} {f : β → Component ν} {keep : β → Bool} {path : List β}
    (hkeep : ∀ c, keep c = false → f c = .here) (h : d.walk p (path.map f) = .ok q) :
    d.walk p ((path.filter keep).map f) = .ok q := by
  induction path generalizing p with
  | nil => exact h
  | cons c path ih =>
    rw [List.map_cons] at h
    unfold walk at h
    split at h
    · contradiction
    · contradiction
    · next hdir =>
      have ih := ih h
      by_cases hc : keep c = true
      · rw [List.filter_cons_of_pos hc, List.map_cons, walk, hdir]
        exact ih
      · rw [hkeep c (Bool.eq_false_iff.mpr hc)] at ih
        rwa [List.filter_cons_of_neg hc]

/-- Without links a path leads where its components say. -/
theorem walk_foldl {path : List (Component ν)} (h : d.walk p path = .ok q) :
    q = path.foldl Component.next p := by
  induction path generalizing p with
  | nil => exact (Except.ok.inj h).symm
  | cons c path ih =>
    unfold walk at h
    split at h
    · contradiction
    · contradiction
    · exact ih h

theorem walk_places {path : List (Component ν)}
    (h : ∀ q ∈ Component.places p path, d.node q = some .dir) :
    d.walk p path = .ok (path.foldl Component.next p) := by
  induction path generalizing p with
  | nil => rfl
  | cons c path ih =>
    have hp : d.node p = some .dir := h p List.mem_cons_self
    rw [walk, hp]
    exact ih fun q hq => h q (List.mem_cons_of_mem _ hq)

theorem dir_of_walk {path : List (Component ν)} (h : d.walk p path = .ok q)
    (hdir : d.node q = some .dir) : ∀ m ∈ Component.places p path, d.node m = some .dir := by
  induction path generalizing p with
  | nil =>
    obtain rfl := Except.ok.inj h
    simpa [Component.places] using hdir
  | cons c path ih =>
    unfold walk at h
    split at h
    · contradiction
    · contradiction
    · next hp =>
      intro m hm
      rcases List.mem_cons.mp hm with rfl | hm
      · exact hp
      · exact ih h m hm

theorem walk_mono {d d' : Disk ν α} (hdirs : ∀ q, d.node q = some .dir → d'.node q = some .dir)
    {path : List (Component ν)} (h : d.walk p path = .ok q) : d'.walk p path = .ok q := by
  induction path generalizing p with
  | nil => exact h
  | cons c path ih =>
    unfold walk at h ⊢
    cases hp : d.node p with
    | none => simp [hp] at h
    | some x =>
      cases x with
      | dir =>
        simp only [hp] at h
        simp only [hdirs p hp]
        exact ih h
      | file content => simp [hp] at h

/-! ### Changes -/

def put (p : List ν) (x : Node α) (hp : d.node p ≠ some .dir)
    (hparent : d.node p.dropLast = some .dir) : Disk ν α where
  entries := d.entries.insert p x
  root := by
    have hne : [] ≠ p := fun heq => hp (heq ▸ d.node_root)
    rw [AList.lookup_insert_ne hne, d.root]
  closed q n hmem := by
    have hold : d.node q = some .dir := by
      rcases (AList.mem_insert _).mp hmem with heq | hmem
      · rwa [← heq, List.dropLast_concat] at hparent
      · exact d.closed q n hmem
    have hne : q ≠ p := fun heq => hp (heq ▸ hold)
    rwa [AList.lookup_insert_ne hne]

@[simp] theorem node_put {x : Node α} {hp : d.node p ≠ some .dir}
    {hparent : d.node p.dropLast = some .dir} :
    (d.put p x hp hparent).node q = if q = p then some x else d.node q := by
  unfold put node
  split
  · next heq => rw [heq, AList.lookup_insert]
  · next hne => rw [AList.lookup_insert_ne hne]

def erase (p : List ν) (hp : p ≠ []) (hempty : d.children p = []) : Disk ν α where
  entries := d.entries.erase p
  root := by rw [AList.lookup_erase_ne hp.symm, d.root]
  closed q n hmem := by
    have hold := (AList.mem_erase.mp hmem).2
    have hne : q ≠ p := by
      intro heq
      have hchild := d.mem_children.mpr (d.mem_entries.mp (heq ▸ hold))
      rw [hempty] at hchild
      exact List.not_mem_nil hchild
    rw [AList.lookup_erase_ne hne, d.closed q n hold]

@[simp] theorem node_erase {hp : p ≠ []} {hempty : d.children p = []} :
    (d.erase p hp hempty).node q = if q = p then none else d.node q := by
  unfold erase node
  split
  · next heq => rw [heq, AList.lookup_erase]
  · next hne => rw [AList.lookup_erase_ne hne]

def remove (p : List ν) : Except Errno (Disk ν α) :=
  if d.node p = none then .error .noEntry
  else if hp : p = [] then .error .busy
  else if hempty : d.children p = [] then .ok (d.erase p hp hempty)
  else .error .notEmpty

theorem remove_empty (h : d.node p ≠ none) (hp : p ≠ []) (hempty : d.children p = []) :
    ∃ d', d.remove p = .ok d' ∧ ∀ q, d'.node q = if q = p then none else d.node q := by
  unfold remove
  rw [if_neg h, dif_neg hp, dif_pos hempty]
  exact ⟨_, rfl, fun q => d.node_erase⟩

theorem remove_ok {d' : Disk ν α} (h : d.remove p = .ok d') :
    d.node p ≠ none ∧ d.children p = [] ∧ ∀ q, d'.node q = if q = p then none else d.node q := by
  unfold remove at h
  split at h
  · contradiction
  · next hnode =>
    split at h
    · contradiction
    · split at h
      · next hempty =>
        obtain rfl := Except.ok.inj h
        exact ⟨hnode, hempty, fun q => d.node_erase⟩
      · contradiction

section Calls
variable [DecidableEq α]

/-- Why nothing can be put into `p`. -/
def missing (p : List ν) : Errno := if d.node p = none then .noEntry else .notDirectory

def mkdir (p : List ν) : Except Errno (Disk ν α) :=
  if h : d.node p = none then
    if hparent : d.node p.dropLast = some .dir then .ok (d.put p .dir (by simp [h]) hparent)
    else .error (d.missing p.dropLast)
  else .error .alreadyExists

/-- Opens a file for writing, makes it if it is not there, and leaves `content` in it. -/
def save (p : List ν) (content : α) : Except Errno (Disk ν α) :=
  if h : d.node p = some .dir then .error .isDirectory
  else if hparent : d.node p.dropLast = some .dir then .ok (d.put p (.file content) h hparent)
  else .error (d.missing p.dropLast)

theorem mkdir_new (h : d.node p = none) (hparent : d.node p.dropLast = some .dir) :
    ∃ d', d.mkdir p = .ok d' ∧ ∀ q, d'.node q = if q = p then some .dir else d.node q := by
  unfold mkdir
  rw [dif_pos h, dif_pos hparent]
  exact ⟨_, rfl, fun q => d.node_put⟩

theorem save_file (content : α) (h : d.node p ≠ some .dir)
    (hparent : d.node p.dropLast = some .dir) : ∃ d', d.save p content = .ok d' ∧
      ∀ q, d'.node q = if q = p then some (.file content) else d.node q := by
  unfold save
  rw [dif_neg h, dif_pos hparent]
  exact ⟨_, rfl, fun q => d.node_put⟩

theorem mkdir_ok {d' : Disk ν α} (h : d.mkdir p = .ok d') :
    d.node p = none ∧ ∀ q, d'.node q = if q = p then some .dir else d.node q := by
  unfold mkdir at h
  split at h
  · next hnone =>
    split at h
    · obtain rfl := Except.ok.inj h
      exact ⟨hnone, fun q => d.node_put⟩
    · contradiction
  · contradiction

theorem save_ok {content : α} {d' : Disk ν α} (h : d.save p content = .ok d') :
    d.node p ≠ some .dir ∧ ∀ q, d'.node q = if q = p then some (.file content) else d.node q := by
  unfold save at h
  split at h
  · contradiction
  · next hno =>
    split at h
    · obtain rfl := Except.ok.inj h
      exact ⟨hno, fun q => d.node_put⟩
    · contradiction

end Calls
end Disk
end Base
