import AdvancedCProjects.Base.Buckets
import AdvancedCProjects.Base.Bytes
import Mathlib.Data.List.Dedup
import Mathlib.Data.List.Induction

/-!
# The table of file types (program.c:58-143)

A bucket is the list of its nodes. `insert` on a key that is there adds one to
its value, whatever value it is given.
-/

namespace AdvancedCProjects.Copier
open Base

structure Hashtable where
  size : ℕ
  count : ℤ
  buckets : List (List (Bytes × ℤ))
  deriving DecidableEq

def charValue (b : Byte) : ℤ := if b.val < 128 then b.val else b.val - 256

/-- `hash`, in `unsigned int` arithmetic; `len` is an `int`. -/
def hash (key : Bytes) (size : ℕ) : ℕ :=
  let len := (wrapInt 4 key.length).toNat
  ((key.take len).foldl (fun hash b => (hash * 31 + charValue b) % 2 ^ 32) (0 : ℤ)).toNat % size

def createHashtable : Hashtable := ⟨10, 0, List.replicate 10 []⟩

namespace Hashtable

def bucket (h : Hashtable) (key : Bytes) : List (Bytes × ℤ) :=
  h.buckets.getD (hash key h.size) []

def get (h : Hashtable) (key : Bytes) : ℤ := ((h.bucket key).lookup key).getD 0

/-- `currentNode->value++` at the first node of the key. -/
def increment (key : Bytes) : List (Bytes × ℤ) → List (Bytes × ℤ)
  | [] => []
  | (k, value) :: nodes =>
    if k = key then (k, wrapInt 4 (value + 1)) :: nodes else (k, value) :: increment key nodes

def insert (h : Hashtable) (key : Bytes) (value : ℤ) : Hashtable :=
  if (h.bucket key).any (·.1 = key) then
    { h with buckets := h.buckets.set (hash key h.size) (increment key (h.bucket key)) }
  else { h with
    buckets := h.buckets.set (hash key h.size) ((key, value) :: h.bucket key)
    count := wrapInt 4 (h.count + 1) }

/-- The call of `insert` in `traverse_directory`. -/
def countKey (h : Hashtable) (key : Bytes) : Hashtable := h.insert key (h.get key + 1)

def countKeys (keys : List Bytes) : Hashtable := keys.foldl countKey createHashtable

/-- The nodes in the order in which `main` prints them. -/
def printed (h : Hashtable) : List (Bytes × ℤ) :=
  (List.range h.size).flatMap fun i => h.buckets.getD i []

/-! ### What the table counts -/

theorem lookup_increment (key q : Bytes) (nodes : List (Bytes × ℤ)) :
    (increment key nodes).lookup q =
      if q = key then (nodes.lookup key).map fun value => wrapInt 4 (value + 1)
      else nodes.lookup q := by
  induction nodes with
  | nil => simp [increment]
  | cons node nodes ih =>
    obtain ⟨k, value⟩ := node
    unfold increment
    by_cases hk : k = key
    · subst hk
      rw [if_pos rfl]
      by_cases hq : q = k
      · subst hq
        simp
      · simp [lookup_cons_eq, hq]
    · rw [if_neg hk, lookup_cons_eq, ih, lookup_cons_eq k key, if_neg (Ne.symm hk), lookup_cons_eq]
      by_cases hq : q = k
      · have hne : q ≠ key := fun h => hk (hq.symm.trans h)
        rw [if_pos hq, if_neg hne, if_pos hq]
      · rw [if_neg hq, if_neg hq]

theorem increment_keys (key : Bytes) (nodes : List (Bytes × ℤ)) :
    (increment key nodes).map Prod.fst = nodes.map Prod.fst := by
  induction nodes with
  | nil => rfl
  | cons node nodes ih =>
    unfold increment
    split
    · rfl
    · rw [List.map_cons, List.map_cons, ih]

theorem any_iff_lookup (key : Bytes) (nodes : List (Bytes × ℤ)) :
    nodes.any (·.1 = key) = true ↔ ∃ value, nodes.lookup key = some value := by
  induction nodes with
  | nil => simp
  | cons node nodes ih =>
    obtain ⟨k, value⟩ := node
    rw [List.any_cons, Bool.or_eq_true, ih, decide_eq_true_iff, lookup_cons_eq k key]
    by_cases hk : key = k
    · rw [if_pos hk]
      exact iff_of_true (.inl hk.symm) ⟨_, rfl⟩
    · rw [if_neg hk]
      exact or_iff_right fun h => hk h.symm

/-- The table after the calls with `keys`. -/
structure Counts (h : Hashtable) (keys : List Bytes) : Prop where
  length : h.buckets.length = h.size
  represents : Represents (hash · h.size) h.buckets fun q =>
    if q ∈ keys then some (wrapInt 4 (keys.count q)) else none
  count : h.count = wrapInt 4 keys.dedup.length

namespace Counts
variable {h : Hashtable} {keys : List Bytes} {key q : Bytes}

theorem lookup (hc : Counts h keys) :
    (h.bucket q).lookup q = if q ∈ keys then some (wrapInt 4 (keys.count q)) else none :=
  hc.represents.lookup q

theorem get (hc : Counts h keys) : h.get q = wrapInt 4 (keys.count q) := by
  rw [Hashtable.get, hc.lookup]
  split
  · rw [Option.getD_some]
  · next hq =>
    rw [List.count_eq_zero.mpr hq]
    exact (wrapInt_length (by norm_num)).symm

theorem dedup_length : (keys ++ [key]).dedup.length =
    if key ∈ keys then keys.dedup.length else keys.dedup.length + 1 := by
  rw [(List.perm_append_singleton key keys).dedup.length_eq]
  split
  · next hmem => rw [List.dedup_cons_of_mem hmem]
  · next hnot => rw [List.dedup_cons_of_notMem hnot, List.length_cons]

theorem wrapInt_succ (n : ℕ) : wrapInt 4 (wrapInt 4 n + 1) = wrapInt 4 (n + 1 : ℕ) := by
  unfold wrapInt
  rw [Int.bmod_add_bmod, Nat.cast_succ]

theorem update_eq : (fun q => if q ∈ keys ++ [key] then some (wrapInt 4 ((keys ++ [key]).count q))
      else none) =
    Function.update (fun q => if q ∈ keys then some (wrapInt 4 (keys.count q)) else none) key
      (some (wrapInt 4 (wrapInt 4 (keys.count key) + 1))) := by
  funext q
  by_cases hq : q = key
  · subst hq
    simp [wrapInt_succ]
  · have hcount : (keys ++ [key]).count q = keys.count q := by
      simp [List.count_append, Ne.symm hq]
    rw [Function.update_of_ne hq, hcount]
    simp [hq]

theorem countKey (hc : Counts h keys) : Counts (h.countKey key) (keys ++ [key]) := by
  have hr := hc.represents
  unfold Hashtable.countKey insert
  split
  · next hany =>
    obtain ⟨value, hvalue⟩ := (any_iff_lookup key _).mp hany
    have hmem : key ∈ keys := by
      by_contra hnot
      rw [hc.lookup, if_neg hnot] at hvalue
      contradiction
    refine ⟨by rw [List.length_set, hc.length], ?_, ?_⟩
    · rw [update_eq]
      apply hr.set
      · intro node hnode
        have hkey : node.1 ∈ (h.bucket key).map Prod.fst := by
          rw [← increment_keys key]
          exact List.mem_map_of_mem hnode
        obtain ⟨node', hnode', heq⟩ := List.mem_map.mp hkey
        rw [← heq]
        exact hr.bucket_placed node' hnode'
      · rw [increment_keys]
        exact hr.bucket_nodup
      · rw [lookup_increment, if_pos rfl, hc.lookup, if_pos hmem]
        rfl
      · intro q hq
        rw [lookup_increment, if_neg hq]
        rfl
    · show h.count = _
      rw [hc.count, dedup_length, if_pos hmem]
  · next hnone =>
    have hnot : key ∉ keys := by
      intro hmem
      have hlookup := hc.lookup (q := key)
      rw [if_pos hmem] at hlookup
      exact hnone ((any_iff_lookup key _).mpr ⟨_, hlookup⟩)
    have hzero : wrapInt 4 (keys.count key) = 0 := by
      rw [List.count_eq_zero.mpr hnot]
      exact wrapInt_length (by norm_num)
    have hone : wrapInt 4 1 = 1 := wrapInt_length (n := 1) (by norm_num)
    refine ⟨by rw [List.length_set, hc.length], ?_, ?_⟩
    · rw [update_eq, hzero, zero_add, hone, hc.get, hzero, zero_add]
      apply hr.set
      · intro node hnode
        rcases List.mem_cons.mp hnode with rfl | hnode
        · rfl
        · exact hr.bucket_placed node hnode
      · refine List.nodup_cons.mpr ⟨fun hmem => ?_, hr.bucket_nodup⟩
        obtain ⟨node, hnode, heq⟩ := List.mem_map.mp hmem
        exact hnone (List.any_eq_true.mpr ⟨node, hnode, decide_eq_true heq⟩)
      · exact List.lookup_cons_self
      · intro q hq
        rw [lookup_cons_eq, if_neg hq]
        rfl
    · rw [hc.count, wrapInt_succ, dedup_length, if_neg hnot]

theorem createHashtable : Counts createHashtable [] where
  length := rfl
  represents := Represents.replicate_nil fun _ => Nat.mod_lt _ (by decide)
  count := (wrapInt_length (n := 0) (by norm_num)).symm

theorem countKeys (keys : List Bytes) : Counts (countKeys keys) keys := by
  induction keys using List.reverseRecOn with
  | nil => exact createHashtable
  | append_singleton keys key ih =>
    rw [Hashtable.countKeys, List.foldl_append]
    exact ih.countKey

theorem printed_eq (hc : Counts h keys) : h.printed = h.buckets.flatten := by
  rw [printed, ← hc.length, List.flatMap_def]
  congr 1
  apply List.ext_getElem
  · simp
  · intro i _ hi
    simp [List.getElem?_eq_getElem hi]

theorem printed_perm (hc : Counts h keys) :
    h.printed.Perm (keys.dedup.map fun key => (key, wrapInt 4 (keys.count key))) := by
  have hkeys := hc.represents.keys_nodup
  rw [hc.printed_eq]
  refine (List.perm_ext_iff_of_nodup hkeys.of_map ?_).mpr ?_
  · refine keys.nodup_dedup.map ?_
    intro a b hab
    exact (Prod.mk.inj hab).1
  · rintro ⟨key, value⟩
    rw [hc.represents.mem_flatten]
    constructor
    · intro h
      split at h
      · next hmem =>
        obtain rfl := Option.some.inj h
        exact List.mem_map.mpr ⟨key, List.mem_dedup.mpr hmem, rfl⟩
      · contradiction
    · intro h
      obtain ⟨key', hmem, heq⟩ := List.mem_map.mp h
      obtain ⟨rfl, rfl⟩ := Prod.mk.inj heq
      rw [if_pos (List.mem_dedup.mp hmem)]

end Counts

/-- As long as the counts are those of an `int`, the table counts the calls with
each key. -/
theorem keys_counted (keys : List Bytes) (hcalls : ∀ key, keys.count key < 2 ^ 31)
    (hkeys : keys.dedup.length < 2 ^ 31) :
    (∀ key, (countKeys keys).get key = keys.count key) ∧
    (∀ i nodes, (countKeys keys).buckets[i]? = some nodes →
      ∀ node ∈ nodes, hash node.1 (countKeys keys).size = i) ∧
    (countKeys keys).printed.Perm (keys.dedup.map fun key => (key, (keys.count key : ℤ))) ∧
    (countKeys keys).count = keys.dedup.length := by
  have hc := Counts.countKeys keys
  refine ⟨fun key => ?_, hc.represents.placed, ?_, ?_⟩
  · rw [hc.get, wrapInt_length (hcalls key)]
  · have hperm := hc.printed_perm
    simp only [wrapInt_length (hcalls _)] at hperm
    exact hperm
  · rw [hc.count, wrapInt_length hkeys]

theorem threeFiles_counted : (∀ key, (countKeys [utf8 "c", utf8 "md", utf8 "c"]).get key =
    [utf8 "c", utf8 "md", utf8 "c"].count key) ∧
    (countKeys [utf8 "c", utf8 "md", utf8 "c"]).count = 2 := by
  have hlength (key : Bytes) : [utf8 "c", utf8 "md", utf8 "c"].count key < 2 ^ 31 :=
    Nat.lt_of_le_of_lt List.count_le_length (by decide)
  have hall := keys_counted [utf8 "c", utf8 "md", utf8 "c"] hlength (by decide)
  exact ⟨hall.1, hall.2.2.2⟩

/-- A value is an `int`. -/
theorem count_overflows : ¬ ∀ (keys : List Bytes) (key : Bytes),
    (countKeys keys).get key = keys.count key := by
  intro h
  have hcount := h (List.replicate (2 ^ 31) []) []
  rw [(Counts.countKeys _).get, List.count_replicate_self] at hcount
  have hrange := (wrapInt_range (2 ^ 31 : ℕ)).2
  rw [hcount] at hrange
  norm_num at hrange

end Hashtable
end AdvancedCProjects.Copier
