import Mathlib.Data.List.Basic
import Mathlib.Data.List.Nodup
import Mathlib.Logic.Function.Basic

/-!
# Blocks of memory

A heap has blocks of one type at addresses; 0 is the null pointer. `Owns` says
which blocks have been allocated since an earlier time: when they are all freed
the earlier heap is back. A `Chain` is a linked list that ends in the null
pointer.
-/

namespace Base

abbrev Heap (β : Type) := ℕ → Option β

namespace Heap
variable {β : Type}

/-- An address that `malloc` may return. -/
def Fresh (heap : Heap β) (p : ℕ) : Prop := p ≠ 0 ∧ heap p = none

def alloc (heap : Heap β) (p : ℕ) (block : β) : Heap β := Function.update heap p (some block)

def load (heap : Heap β) (p : ℕ) : Option β := if p = 0 then none else heap p

def store (heap : Heap β) (p : ℕ) (block : β) : Option (Heap β) :=
  (heap.load p).map fun _ => heap.alloc p block

/-- `free` of a block that is there. -/
def free (heap : Heap β) (p : ℕ) : Option (Heap β) :=
  (heap.load p).map fun _ => Function.update heap p none

section Calls
variable {heap : Heap β} {p q : ℕ} {block old : β}

@[simp] theorem alloc_self : heap.alloc p block p = some block := Function.update_self ..

@[simp] theorem alloc_ne (h : q ≠ p) : heap.alloc p block q = heap q := Function.update_of_ne h ..

theorem load_of (h0 : p ≠ 0) (h : heap p = some block) : heap.load p = some block := by
  rw [load, if_neg h0, h]

theorem store_of (h : heap.load p = some old) (block : β) :
    heap.store p block = some (heap.alloc p block) := by
  rw [store, h, Option.map_some]

theorem free_of (h : heap.load p = some old) :
    heap.free p = some (Function.update heap p none) := by
  rw [free, h, Option.map_some]

end Calls

/-! ### What has been allocated -/

/-- The blocks at `addresses` are those that `heap` has and `before` has not. -/
structure Owns (before heap : Heap β) (addresses : List ℕ) : Prop where
  nodup : addresses.Nodup
  mine : ∀ p ∈ addresses, p ≠ 0 ∧ before p = none ∧ heap p ≠ none
  others : ∀ p, p ∉ addresses → heap p = before p

namespace Owns
variable {before heap : Heap β} {addresses : List ℕ} {p : ℕ} {block : β}

theorem refl (heap : Heap β) : Owns heap heap [] :=
  ⟨List.nodup_nil, by simp, fun _ _ => rfl⟩

theorem back (h : Owns before heap []) : heap = before :=
  funext fun p => h.others p List.not_mem_nil

theorem perm {addresses' : List ℕ} (h : Owns before heap addresses)
    (hp : addresses.Perm addresses') : Owns before heap addresses' where
  nodup := hp.nodup_iff.mp h.nodup
  mine p hmem := h.mine p (hp.mem_iff.mpr hmem)
  others p hmem := h.others p fun hold => hmem (hp.mem_iff.mp hold)

theorem fresh_not_mem (h : Owns before heap addresses) (hp : heap.Fresh p) : p ∉ addresses :=
  fun hmem => (h.mine p hmem).2.2 hp.2

theorem alloc (h : Owns before heap addresses) (hp : heap.Fresh p) (block : β) :
    Owns before (heap.alloc p block) (p :: addresses) where
  nodup := List.nodup_cons.mpr ⟨h.fresh_not_mem hp, h.nodup⟩
  mine q hq := by
    by_cases heq : q = p
    · subst heq
      refine ⟨hp.1, ?_, by simp⟩
      rw [← h.others q (h.fresh_not_mem hp), hp.2]
    · rw [alloc_ne heq]
      exact h.mine q ((List.mem_cons.mp hq).resolve_left heq)
  others q hq := by
    obtain ⟨hne, hold⟩ := not_or.mp (List.mem_cons.not.mp hq)
    rw [alloc_ne hne, h.others q hold]

theorem store (h : Owns before heap addresses) (hp : p ∈ addresses) (block : β) :
    Owns before (heap.alloc p block) addresses where
  nodup := h.nodup
  mine q hq := by
    obtain ⟨hzero, hbefore, hthere⟩ := h.mine q hq
    refine ⟨hzero, hbefore, ?_⟩
    by_cases heq : q = p
    · simp [heq]
    · rwa [alloc_ne heq]
  others q hq := by
    have hne : q ≠ p := fun heq => hq (heq ▸ hp)
    rw [alloc_ne hne, h.others q hq]

theorem free (h : Owns before heap (p :: addresses)) :
    ∃ after, heap.free p = some after ∧ Owns before after addresses ∧
      ∀ q ≠ p, after q = heap q := by
  obtain ⟨hnew, hnodup⟩ := List.nodup_cons.mp h.nodup
  obtain ⟨hzero, hbefore, hthere⟩ := h.mine p List.mem_cons_self
  obtain ⟨block, hblock⟩ := Option.ne_none_iff_exists'.mp hthere
  have hsame (q : ℕ) (hq : q ≠ p) : Function.update heap p none q = heap q :=
    Function.update_of_ne hq ..
  refine ⟨_, free_of (load_of hzero hblock), ?_, hsame⟩
  constructor
  · exact hnodup
  · intro q hq
    rw [hsame q fun heq => hnew (heq ▸ hq)]
    exact h.mine q (List.mem_cons_of_mem p hq)
  · intro q hq
    by_cases heq : q = p
    · rw [heq, Function.update_self, hbefore]
    · rw [hsame q heq]
      exact h.others q fun hmem => hq ((List.mem_cons.mp hmem).resolve_left heq)

end Owns

/-! ### Linked lists -/

def Chain (next : β → ℕ) (heap : Heap β) : ℕ → List (ℕ × β) → Prop
  | p, [] => p = 0
  | p, cell :: cells => p = cell.1 ∧ p ≠ 0 ∧ heap p = some cell.2 ∧
      Chain next heap (next cell.2) cells

namespace Chain
variable {next : β → ℕ} {heap heap' : Heap β} {p q : ℕ} {cells before after : List (ℕ × β)}
  {block block' : β}

theorem congr (h : Chain next heap p cells)
    (hsame : ∀ a ∈ cells.map Prod.fst, heap' a = heap a) : Chain next heap' p cells := by
  induction cells generalizing p with
  | nil => exact h
  | cons cell cells ih =>
    obtain ⟨rfl, hzero, hblock, hrest⟩ := h
    refine ⟨rfl, hzero, ?_, ih hrest fun a ha => hsame a (List.mem_cons_of_mem _ ha)⟩
    rw [hsame cell.1 List.mem_cons_self, hblock]

/-- A new block in front of the list. -/
theorem push (h : Chain next heap p cells) (hq : heap.Fresh q) (hnew : q ∉ cells.map Prod.fst)
    (hnext : next block = p) : Chain next (heap.alloc q block) q ((q, block) :: cells) := by
  refine ⟨rfl, hq.1, alloc_self, ?_⟩
  rw [hnext]
  exact h.congr fun a ha => alloc_ne fun heq => hnew (heq ▸ ha)

/-- Another block with the same successor at the place of an old one. -/
theorem replace (h : Chain next heap p (before ++ (q, block) :: after))
    (hnodup : ((before ++ (q, block) :: after).map Prod.fst).Nodup)
    (hnext : next block' = next block) :
    Chain next (heap.alloc q block') p (before ++ (q, block') :: after) := by
  induction before generalizing p with
  | nil =>
    obtain ⟨rfl, hzero, -, hrest⟩ := h
    have hnew : p ∉ after.map Prod.fst := (List.nodup_cons.mp hnodup).1
    refine ⟨rfl, hzero, alloc_self, ?_⟩
    rw [hnext]
    exact hrest.congr fun a ha => alloc_ne fun heq => hnew (heq ▸ ha)
  | cons cell before ih =>
    obtain ⟨rfl, hzero, hblock, hrest⟩ := h
    obtain ⟨hnew, hnodup⟩ := List.nodup_cons.mp hnodup
    have hne : cell.1 ≠ q := by
      intro heq
      exact hnew (List.mem_map.mpr ⟨(q, block), by simp, heq.symm⟩)
    exact ⟨rfl, hzero, by rw [alloc_ne hne, hblock], ih hrest hnodup⟩

end Chain
end Heap
end Base
