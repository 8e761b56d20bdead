import AdvancedCProjects.Base.Machine
import Mathlib.Data.List.Basic

/-!
# Parties over one store

Parties join one after another, each with a state of its own, and take their steps
in any order on a store that they share. An invariant of a party may speak of its
state and of the store: the party keeps it by its own steps, and the others do not
break it because their steps change the store only as they guarantee.
-/

namespace Base

structure Shared (σ τ : Type) where
  parties : List σ
  store : τ

inductive SharedStep (σ α : Type) where
  | join (party : σ)
  | move (i : ℕ) (a : α)

section Sharing
variable {σ τ α : Type}

def Shared.next (next : ℕ → σ → τ → α → Option (σ × τ)) (s : Shared σ τ) :
    SharedStep σ α → Option (Shared σ τ)
  | .join party => some { s with parties := s.parties ++ [party] }
  | .move i a => (s.parties[i]?).bind fun x => (next i x s.store a).map fun y =>
      ⟨s.parties.set i y.1, y.2⟩

/-- Nobody is there at the start. -/
def sharing (start : τ → Prop) (next : ℕ → σ → τ → α → Option (σ × τ)) :
    Machine (Shared σ τ) (SharedStep σ α) where
  start s := s.parties = [] ∧ start s.store
  next := Shared.next next

/-- What is asked of the steps, `joins` of a party that joins and `ok` of one that moves. -/
def Shared.Allows (joins : ℕ → σ → τ → Prop) (ok : ℕ → σ → τ → α → Prop) (s : Shared σ τ) :
    SharedStep σ α → Prop
  | .join party => joins s.parties.length party s.store
  | .move i a => ∀ x, s.parties[i]? = some x → ok i x s.store a

structure RelyGuarantee (next : ℕ → σ → τ → α → Option (σ × τ)) (joins : ℕ → σ → τ → Prop)
    (ok : ℕ → σ → τ → α → Prop) (I : ℕ → σ → τ → Prop) (guarantee : ℕ → τ → τ → Prop) : Prop where
  base : ∀ i x s, joins i x s → I i x s
  keep : ∀ i x s a y t, I i x s → ok i x s a → next i x s a = some (y, t) →
    I i y t ∧ guarantee i s t
  stable : ∀ i j x s t, j ≠ i → I i x s → guarantee j s t → I i x t

variable {start : τ → Prop} {next : ℕ → σ → τ → α → Option (σ × τ)} {joins : ℕ → σ → τ → Prop}
  {ok : ℕ → σ → τ → α → Prop} {I : ℕ → σ → τ → Prop} {guarantee : ℕ → τ → τ → Prop}

theorem RelyGuarantee.inductive (h : RelyGuarantee next joins ok I guarantee) :
    (sharing start next).Inductive (Shared.Allows joins ok)
      fun s => ∀ i x, s.parties[i]? = some x → I i x s.store where
  base s hs i x hx := by
    obtain ⟨hnone, -⟩ := hs
    simp [hnone] at hx
  keep s a t hs ha hn := by
    cases a with
    | join party =>
      obtain rfl := Option.some.inj hn
      intro i x hx
      rcases Nat.lt_trichotomy i s.parties.length with hlt | heq | hgt
      · rw [List.getElem?_append_left hlt] at hx
        exact hs i x hx
      · subst heq
        obtain rfl : party = x := by simpa using hx
        exact h.base _ _ _ ha
      · have hnone : (s.parties ++ [party])[i]? = none := by
          rw [List.getElem?_eq_none_iff, List.length_append, List.length_singleton]
          exact hgt
        rw [hnone] at hx
        contradiction
    | move i a =>
      obtain ⟨x, hx, hmove⟩ := Option.bind_eq_some_iff.mp hn
      obtain ⟨⟨y, store⟩, hnext, rfl⟩ := Option.map_eq_some_iff.mp hmove
      obtain ⟨hkept, hguarantee⟩ := h.keep i x s.store a y store (hs i x hx) (ha x hx) hnext
      intro j z hz
      by_cases hij : i = j
      · subst hij
        have hlt := (List.getElem?_eq_some_iff.mp hx).1
        obtain rfl : y = z := by simpa [hlt] using hz
        exact hkept
      · rw [List.getElem?_set_ne hij] at hz
        exact h.stable j i z s.store store hij (hs j z hz) hguarantee

end Sharing
end Base
