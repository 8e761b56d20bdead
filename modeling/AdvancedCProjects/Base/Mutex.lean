import Mathlib.Data.List.Basic

/-!
# A mutex and the threads that use it

`Owner me holds m threads`: of the threads in a list, the `j`th one is in its
critical section exactly when the mutex `m` has the owner `me j`. A program with
several kinds of threads has one such fact for each kind.
-/

namespace Base

variable {α τ : Type}

def Owner (me : ℕ → τ) (holds : α → Bool) (m : Option τ) (threads : List α) : Prop :=
  ∀ j, threads[j]?.any holds = true ↔ m = some (me j)

/-- What a thread does with the mutex in one step: nothing, or it takes the free
mutex, or gives it back. -/
inductive LockMove (me : τ) : Option τ → Option τ → Bool → Bool → Prop where
  | keep (m : Option τ) (b : Bool) : LockMove me m m b b
  | acquire (b : Bool) : LockMove me none (some me) b true
  | release (m : Option τ) : LockMove me m none true false

namespace Owner
variable {me : ℕ → τ} {holds : α → Bool} {m m' : Option τ} {threads : List α} {i j : ℕ} {x y : α}
  {o : τ}

theorem nil (hm : ∀ j, m ≠ some (me j)) : Owner me holds m [] := by
  intro j
  simpa using hm j

theorem eq_of_holds (h : Owner me holds m threads) (hx : threads[i]? = some x)
    (hh : holds x = true) : m = some (me i) := by
  rw [← h i, hx]
  exact hh

theorem unique (h : Owner me holds m threads) (hme : me.Injective) (hx : threads[i]? = some x)
    (hy : threads[j]? = some y) (hhx : holds x = true) (hhy : holds y = true) : i = j := by
  have heq := (h.eq_of_holds hx hhx).symm.trans (h.eq_of_holds hy hhy)
  exact hme (Option.some.inj heq)

theorem move (h : Owner me holds m threads) (hx : threads[i]? = some x)
    (hh : holds y = holds x) : Owner me holds m (threads.set i y) := by
  intro j
  rw [← h j, List.getElem?_set]
  split
  · next hij =>
    subst hij
    have hi := (List.getElem?_eq_some_iff.mp hx).1
    rw [if_pos hi, hx, Option.any_some, Option.any_some, hh]
  · rfl

theorem step (h : Owner me holds m threads) (hme : me.Injective) (hx : threads[i]? = some x)
    (hl : LockMove (me i) m m' (holds x) (holds y)) : Owner me holds m' (threads.set i y) := by
  have hi := (List.getElem?_eq_some_iff.mp hx).1
  have own (j : ℕ) (hij : i = j) : (threads.set i y)[j]?.any holds = holds y := by
    subst hij
    rw [List.getElem?_set_self hi, Option.any_some]
  have others (j : ℕ) (hij : i ≠ j) : (threads.set i y)[j]? = threads[j]? :=
    List.getElem?_set_ne hij
  generalize hb : holds x = b at hl
  generalize hb' : holds y = b' at hl
  cases hl with
  | keep => exact h.move hx (hb'.trans hb.symm)
  | acquire =>
    intro j
    by_cases hij : i = j
    · rw [own j hij, hb', hij]
      exact iff_of_true rfl rfl
    · rw [others j hij, h j, Option.some.injEq]
      exact iff_of_false (by simp) fun heq => hij (hme heq)
  | release =>
    have hm := h.eq_of_holds hx hb
    intro j
    by_cases hij : i = j
    · rw [own j hij, hb']
      exact iff_of_false (by simp) (by simp)
    · rw [others j hij, h j, hm, Option.some.injEq]
      exact iff_of_false (fun heq => hij (hme heq)) (by simp)

theorem other {b b' : Bool} (h : Owner me holds m threads) (ho : ∀ j, o ≠ me j)
    (hb : b = true → m = some o) (hl : LockMove o m m' b b') : Owner me holds m' threads := by
  intro j
  rw [h j]
  cases hl with
  | keep => rfl
  | acquire =>
    rw [Option.some.injEq]
    exact iff_of_false (by simp) (ho j)
  | release =>
    rw [hb rfl, Option.some.injEq]
    exact iff_of_false (ho j) (by simp)

theorem append (h : Owner me holds m threads) (hy : holds y = false) :
    Owner me holds m (threads ++ [y]) := by
  intro j
  rw [← h j, List.getElem?_append]
  split
  · rfl
  · next hj =>
    have hnone : threads[j]? = none := List.getElem?_eq_none (by omega)
    rw [hnone, List.getElem?_singleton]
    split <;> simp [hy]

theorem map (h : Owner me holds m threads) {f : α → α} (hf : ∀ x, holds (f x) = holds x) :
    Owner me holds m (threads.map f) := by
  intro j
  rw [← h j, List.getElem?_map]
  cases threads[j]? <;> simp [hf]

end Owner
end Base
