import Mathlib.Data.Nat.Notation
import Mathlib.Logic.Relation

/-!
# State machines with labelled steps

A machine is given by its start states and a partial step function; whatever
the scheduler, the network or the system calls decide is carried by the
action. `Reaches ok` are the states at the end of the runs whose steps all
meet `ok`, `Reachable` those at the end of any run.
-/

namespace Base

structure Machine (σ α : Type) where
  start : σ → Prop
  next : σ → α → Option σ

namespace Machine
variable {σ α : Type} (M : Machine σ α)

inductive Reaches (ok : σ → α → Prop) : σ → Prop where
  | start {s : σ} : M.start s → Reaches ok s
  | step {s t : σ} {a : α} : Reaches ok s → ok s a → M.next s a = some t → Reaches ok t

def Reachable : σ → Prop := M.Reaches fun _ _ => True

def run (s : σ) : List α → Option σ
  | [] => some s
  | a :: as => (M.next s a).bind fun t => run t as

variable {M} {ok ok' : σ → α → Prop} {s t : σ}

theorem Reachable.run (h : M.Reachable s) (as : List α) (hr : M.run s as = some t) :
    M.Reachable t := by
  induction as generalizing s with
  | nil =>
    have heq : s = t := Option.some.inj hr
    exact heq ▸ h
  | cons a as ih =>
    obtain ⟨u, hu, hrest⟩ := Option.bind_eq_some_iff.mp hr
    exact ih (.step h trivial hu) hrest

/-- The machine that takes only the steps that meet `ok`. -/
def guarded (M : Machine σ α) (ok : σ → α → Prop) [∀ s a, Decidable (ok s a)] : Machine σ α where
  start := M.start
  next s a := if ok s a then M.next s a else none

/-- Behind a reached state the run may be held to a narrower condition. -/
theorem Reaches.run_sub [∀ s a, Decidable (ok' s a)] (h : M.Reaches ok s)
    (sub : ∀ s a, ok' s a → ok s a) (as : List α) (hr : (M.guarded ok').run s as = some t) :
    M.Reaches ok t := by
  induction as generalizing s with
  | nil =>
    have heq : s = t := Option.some.inj hr
    exact heq ▸ h
  | cons a as ih =>
    obtain ⟨u, hu, hrest⟩ := Option.bind_eq_some_iff.mp hr
    simp only [guarded] at hu
    split at hu
    · next hok => exact ih (.step h (sub s a hok) hu) hrest
    · contradiction

theorem Reaches.run [∀ s a, Decidable (ok s a)] (h : M.Reaches ok s) (as : List α)
    (hr : (M.guarded ok).run s as = some t) : M.Reaches ok t :=
  h.run_sub (fun _ _ => id) as hr

theorem Reaches.reachable (h : M.Reaches ok s) : M.Reachable s := by
  induction h with
  | start hs => exact .start hs
  | step _ _ hn ih => exact .step ih trivial hn

theorem Reaches.mono (h : M.Reaches ok s) (sub : ∀ s a, ok s a → ok' s a) : M.Reaches ok' s := by
  induction h with
  | start hs => exact .start hs
  | step _ ha hn ih => exact .step ih (sub _ _ ha) hn

structure Inductive (M : Machine σ α) (ok : σ → α → Prop) (I : σ → Prop) : Prop where
  base : ∀ s, M.start s → I s
  keep : ∀ s a t, I s → ok s a → M.next s a = some t → I t

variable {I J : σ → Prop}

theorem Inductive.holds (hi : M.Inductive ok I) (h : M.Reaches ok s) : I s := by
  induction h with
  | start hs => exact hi.base _ hs
  | step _ ha hn ih => exact hi.keep _ _ _ ih ha hn

theorem Inductive.mono (hi : M.Inductive ok I) (sub : ∀ s a, ok' s a → ok s a) :
    M.Inductive ok' I where
  base := hi.base
  keep s a t h ha hn := hi.keep s a t h (sub s a ha) hn

theorem Inductive.and (hi : M.Inductive ok I) (base : ∀ s, M.start s → J s)
    (keep : ∀ s a t, I s → I t → J s → ok s a → M.next s a = some t → J t) :
    M.Inductive ok fun s => I s ∧ J s where
  base s hs := ⟨hi.base s hs, base s hs⟩
  keep s a t h ha hn :=
    have ht := hi.keep s a t h.1 ha hn
    ⟨ht, keep s a t h.1 ht h.2 ha hn⟩

def Path (M : Machine σ α) (ok : σ → α → Prop) : σ → σ → Prop :=
  Relation.TransGen fun s t => ∃ a, ok s a ∧ M.next s a = some t

def Path₀ (M : Machine σ α) (ok : σ → α → Prop) : σ → σ → Prop :=
  Relation.ReflTransGen fun s t => ∃ a, ok s a ∧ M.next s a = some t

theorem Path.of_run [∀ s a, Decidable (ok s a)] {a : α} (as : List α)
    (hr : (M.guarded ok).run s (a :: as) = some t) : M.Path ok s t := by
  have step : ∀ (s : σ) (a : α) (u : σ), (M.guarded ok).next s a = some u →
      ∃ a, ok s a ∧ M.next s a = some u := by
    intro s a u hu
    simp only [guarded] at hu
    split at hu
    · next hok => exact ⟨a, hok, hu⟩
    · contradiction
  induction as generalizing a s with
  | nil =>
    obtain ⟨u, hu, hrest⟩ := Option.bind_eq_some_iff.mp hr
    have heq : u = t := Option.some.inj hrest
    exact .single (step s a t (heq ▸ hu))
  | cons b as ih =>
    obtain ⟨u, hu, hrest⟩ := Option.bind_eq_some_iff.mp hr
    exact .head (step s a u hu) (ih hrest)

theorem Path.first (h : M.Path ok s t) :
    ∃ a u, ok s a ∧ M.next s a = some u ∧ M.Path₀ ok u t := by
  obtain ⟨u, ⟨a, ha, hn⟩, hrest⟩ := Relation.TransGen.head'_iff.mp h
  exact ⟨a, u, ha, hn, hrest⟩

theorem Path.mono (h : M.Path ok s t) (sub : ∀ s a, ok s a → ok' s a) : M.Path ok' s t := by
  induction h with
  | single hstep =>
    obtain ⟨a, ha, hn⟩ := hstep
    exact .single ⟨a, sub _ a ha, hn⟩
  | tail _ hstep ih =>
    obtain ⟨a, ha, hn⟩ := hstep
    exact .tail ih ⟨a, sub _ a ha, hn⟩

theorem Path₀.first (h : M.Path₀ ok s t) (hne : s ≠ t) :
    ∃ a u, ok s a ∧ M.next s a = some u ∧ M.Path₀ ok u t := by
  rcases Relation.ReflTransGen.cases_head h with heq | ⟨u, ⟨a, ha, hn⟩, hrest⟩
  · exact (hne heq).elim
  · exact ⟨a, u, ha, hn, hrest⟩

theorem Path₀.keep (h : M.Path₀ ok s t) (hI : I s)
    (step : ∀ s a t, I s → ok s a → M.next s a = some t → I t) : I t := by
  induction h with
  | refl => exact hI
  | tail _ h ih =>
    obtain ⟨a, ha, hn⟩ := h
    exact step _ a _ ih ha hn

/-- A run of one machine is a path of another when its steps are. -/
theorem run_projects {ρ β : Type} {N : Machine ρ β} {okN : ρ → β → Prop} (R : σ → ρ → Prop)
    (f : β → α) {b : β} (bs : List β)
    (step : ∀ b' ∈ b :: bs, ∀ s t u, R s u → M.next s (f b') = some t →
      ∃ v, R t v ∧ okN u b' ∧ N.next u b' = some v) {u : ρ} (hu : R s u)
    (hr : M.run s ((b :: bs).map f) = some t) : ∃ v, R t v ∧ N.Path okN u v := by
  induction bs generalizing b s u with
  | nil =>
    obtain ⟨s', hs', hrest⟩ := Option.bind_eq_some_iff.mp hr
    obtain rfl : s' = t := Option.some.inj hrest
    obtain ⟨v, hv, hok, hn⟩ := step b List.mem_cons_self s s' u hu hs'
    exact ⟨v, hv, .single ⟨b, hok, hn⟩⟩
  | cons b' bs ih =>
    obtain ⟨s', hs', hrest⟩ := Option.bind_eq_some_iff.mp hr
    obtain ⟨w, hw, hok, hn⟩ := step b List.mem_cons_self s s' u hu hs'
    obtain ⟨v, hv, hpath⟩ := ih (fun c hc => step c (List.mem_cons_of_mem _ hc)) hw hrest
    exact ⟨v, hv, .head ⟨b, hok, hn⟩ hpath⟩

/-- Runs of `n` steps. -/
inductive Steps (M : Machine σ α) (ok : σ → α → Prop) : ℕ → σ → σ → Prop where
  | none {s : σ} : Steps M ok 0 s s
  | step {s t u : σ} {a : α} {n : ℕ} : ok s a → M.next s a = some t → Steps M ok n t u →
    Steps M ok (n + 1) s u

/-- A rank that every step lowers bounds the length of the runs. -/
theorem Steps.le_rank {n : ℕ} (rank : σ → ℕ) (h : M.Steps ok n s t) (hI : I s)
    (keep : ∀ s a t, I s → ok s a → M.next s a = some t → I t ∧ rank t < rank s) :
    n ≤ rank s := by
  induction h with
  | none => exact Nat.zero_le _
  | step ha hn _ ih =>
    obtain ⟨hkept, hless⟩ := keep _ _ _ hI ha hn
    have hrest := ih hkept
    omega

/-- The machine with a variable that records something of the run and is never read. -/
def recorded {η : Type} (M : Machine σ α) (first : σ → η) (record : σ → α → η → η) :
    Machine (σ × η) α where
  start s := M.start s.1 ∧ s.2 = first s.1
  next s a := (M.next s.1 a).map fun t => (t, record s.1 a s.2)

/-- Every run can be recorded. -/
theorem Reaches.recorded {η : Type} {first : σ → η} {record : σ → α → η → η} (h : M.Reaches ok s) :
    ∃ r, (M.recorded first record).Reaches (fun s a => ok s.1 a) (s, r) := by
  induction h with
  | @start s hs => exact ⟨first s, .start ⟨hs, rfl⟩⟩
  | @step s t a _ ha hn ih =>
    obtain ⟨r, hr⟩ := ih
    exact ⟨record s a r, hr.step ha (by simp [Machine.recorded, hn])⟩

/-- The machine beside a world that answers its steps, or does not allow them. -/
def beside {τ : Type} (M : Machine σ α) (first : τ → Prop) (answer : σ → α → τ → Option τ) :
    Machine (σ × τ) α where
  start s := M.start s.1 ∧ first s.2
  next s a := (M.next s.1 a).bind fun t => (answer s.1 a s.2).map fun w => (t, w)

section Beside
variable {τ : Type} {first : τ → Prop} {answer : σ → α → τ → Option τ} {x y : σ × τ} {a : α}

theorem beside_next (h : (M.beside first answer).next x a = some y) :
    M.next x.1 a = some y.1 ∧ answer x.1 a x.2 = some y.2 := by
  obtain ⟨t, ht, h⟩ := Option.bind_eq_some_iff.mp h
  obtain ⟨w, hw, rfl⟩ := Option.map_eq_some_iff.mp h
  exact ⟨ht, hw⟩

end Beside

/-- `R` relates the states of two machines that take the same steps. -/
structure Simulation {τ : Type} (M : Machine σ α) (N : Machine τ α) (R : σ → τ → Prop) :
    Prop where
  base : ∀ s, M.start s → ∃ t, N.start t ∧ R s t
  keep : ∀ s a s' t, R s t → M.next s a = some s' → ∃ t', N.next t a = some t' ∧ R s' t'

theorem Simulation.reachable {τ : Type} {N : Machine τ α} {R : σ → τ → Prop}
    (hs : M.Simulation N R) (h : M.Reachable s) : ∃ t, N.Reachable t ∧ R s t := by
  induction h with
  | @start s hstart =>
    obtain ⟨t, ht, hr⟩ := hs.base s hstart
    exact ⟨t, .start ht, hr⟩
  | @step s s' a _ _ hn ih =>
    obtain ⟨t, ht, hr⟩ := ih
    obtain ⟨t', hn', hr'⟩ := hs.keep s a s' t hr hn
    exact ⟨t', .step ht trivial hn', hr'⟩

end Machine
end Base
