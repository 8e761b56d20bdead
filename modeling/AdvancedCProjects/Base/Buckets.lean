import Mathlib.Data.List.GetD
import Mathlib.Data.List.Nodup

/-!
# Chained hash tables

A table is a list of buckets, a bucket the list of its nodes, and `slot` says
which bucket a key belongs to. `Represents slot buckets m` says that the table
holds exactly the entries of the partial function `m`, each in its own bucket
and once.
-/

namespace Base

variable {κ ν : Type} [BEq κ]

theorem lookup_cons_eq [LawfulBEq κ] [DecidableEq κ] (k q : κ) (v : ν) (nodes : List (κ × ν)) :
    ((k, v) :: nodes).lookup q = if q = k then some v else nodes.lookup q := by
  rw [List.lookup_cons]
  split
  · next h => rw [if_pos (beq_iff_eq.mp h)]
  · next h => rw [if_neg (by simpa using h)]

theorem lookup_eq_some_iff_mem [LawfulBEq κ] {nodes : List (κ × ν)}
    (hd : (nodes.map Prod.fst).Nodup) {k : κ} {v : ν} :
    nodes.lookup k = some v ↔ (k, v) ∈ nodes := by
  classical
  induction nodes with
  | nil => simp
  | cons node nodes ih =>
    obtain ⟨hnot, hd⟩ := List.nodup_cons.mp hd
    rw [lookup_cons_eq, List.mem_cons, ← ih hd]
    by_cases hk : k = node.1
    · subst hk
      have hnone : nodes.lookup node.1 ≠ some v := fun h =>
        hnot (List.mem_map.mpr ⟨_, (ih hd).mp h, rfl⟩)
      simp [Prod.ext_iff, hnone, eq_comm]
    · simp [Prod.ext_iff, hk]

structure Represents (slot : κ → ℕ) (buckets : List (List (κ × ν))) (m : κ → Option ν) :
    Prop where
  slot_lt : ∀ k, slot k < buckets.length
  placed : ∀ i nodes, buckets[i]? = some nodes → ∀ node ∈ nodes, slot node.1 = i
  nodup : ∀ nodes ∈ buckets, (nodes.map Prod.fst).Nodup
  lookup : ∀ k, (buckets.getD (slot k) []).lookup k = m k

namespace Represents
variable {slot : κ → ℕ} {buckets : List (List (κ × ν))} {m : κ → Option ν} {k : κ} {v : ν}

theorem replicate_nil {n : ℕ} (hslot : ∀ k, slot k < n) :
    Represents slot (List.replicate n ([] : List (κ × ν))) fun _ => none where
  slot_lt k := by simpa using hslot k
  placed i nodes hi node hn := by
    obtain ⟨hlt, rfl⟩ := List.getElem?_eq_some_iff.mp hi
    simp at hn
  nodup nodes hn := by
    rw [List.eq_of_mem_replicate hn]
    exact List.nodup_nil
  lookup k := by
    rw [List.getD_eq_getElem _ _ (by simpa using hslot k), List.getElem_replicate]
    rfl

/-- The bucket of `k` gets another content, in which only `k` has another value. -/
theorem set [DecidableEq κ] (h : Represents slot buckets m) {nodes : List (κ × ν)}
    (hplaced : ∀ node ∈ nodes, slot node.1 = slot k) (hd : (nodes.map Prod.fst).Nodup)
    (hk : nodes.lookup k = some v)
    (hother : ∀ q ≠ k, nodes.lookup q = (buckets.getD (slot k) []).lookup q) :
    Represents slot (buckets.set (slot k) nodes) (Function.update m k (some v)) where
  slot_lt q := by simpa using h.slot_lt q
  placed i nodes' hi node hn := by
    rw [List.getElem?_set] at hi
    split at hi
    · next heq =>
      split at hi
      · cases hi
        exact (hplaced node hn).trans heq
      · contradiction
    · exact h.placed i nodes' hi node hn
  nodup nodes' hn := by
    rcases List.mem_or_eq_of_mem_set hn with hold | rfl
    · exact h.nodup nodes' hold
    · exact hd
  lookup q := by
    have hlt := h.slot_lt k
    by_cases hslot : slot q = slot k
    · have hbucket : (buckets.set (slot k) nodes).getD (slot q) [] = nodes := by
        rw [hslot, List.getD_eq_getElem?_getD, List.getElem?_set_self hlt, Option.getD_some]
      rw [hbucket]
      by_cases hq : q = k
      · rw [hq, hk, Function.update_self]
      · rw [Function.update_of_ne hq, hother q hq, ← hslot]
        exact h.lookup q
    · have hq : q ≠ k := fun heq => hslot (heq ▸ rfl)
      rw [List.getD_eq_getElem?_getD, List.getElem?_set_ne (Ne.symm hslot),
        ← List.getD_eq_getElem?_getD, Function.update_of_ne hq]
      exact h.lookup q

theorem bucket (h : Represents slot buckets m) :
    buckets[slot k]? = some (buckets.getD (slot k) []) := by
  have hlt := h.slot_lt k
  rw [List.getD_eq_getElem _ _ hlt, List.getElem?_eq_getElem hlt]

theorem bucket_nodup (h : Represents slot buckets m) :
    ((buckets.getD (slot k) []).map Prod.fst).Nodup :=
  h.nodup _ (List.mem_of_getElem? h.bucket)

theorem bucket_placed (h : Represents slot buckets m) :
    ∀ node ∈ buckets.getD (slot k) [], slot node.1 = slot k :=
  h.placed (slot k) _ h.bucket

theorem mem_flatten [LawfulBEq κ] (h : Represents slot buckets m) :
    (k, v) ∈ buckets.flatten ↔ m k = some v := by
  rw [← h.lookup k, lookup_eq_some_iff_mem h.bucket_nodup]
  constructor
  · intro hmem
    obtain ⟨nodes, hnodes, hk⟩ := List.mem_flatten.mp hmem
    obtain ⟨i, hi⟩ := List.mem_iff_getElem?.mp hnodes
    rw [h.placed i nodes hi _ hk, List.getD_eq_getElem?_getD, hi]
    exact hk
  · intro hmem
    exact List.mem_flatten.mpr ⟨_, List.mem_of_getElem? h.bucket, hmem⟩

theorem keys_nodup (h : Represents slot buckets m) : (buckets.flatten.map Prod.fst).Nodup := by
  rw [List.map_flatten, List.nodup_flatten]
  constructor
  · intro keys hkeys
    obtain ⟨nodes, hnodes, rfl⟩ := List.mem_map.mp hkeys
    exact h.nodup nodes hnodes
  · rw [List.pairwise_map, List.pairwise_iff_getElem]
    intro i j hi hj hij q hqi hqj
    obtain ⟨x, hx, rfl⟩ := List.mem_map.mp hqi
    obtain ⟨y, hy, hxy⟩ := List.mem_map.mp hqj
    have hslotx := h.placed i _ (List.getElem?_eq_getElem hi) x hx
    have hsloty := h.placed j _ (List.getElem?_eq_getElem hj) y hy
    rw [hxy] at hsloty
    omega

end Represents
end Base
