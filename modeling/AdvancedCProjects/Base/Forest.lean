import Mathlib.Data.List.Nodup

/-!
# Forests of named entries

A directory is the list of its entries; an entry is a leaf or a directory of its
own. `visits` goes through a forest depth first and meets a directory before
what is in it. Several walkers may share a forest: each has the directory it is
in and the entries that it has not dealt with.
-/

namespace Base

inductive Forest (ν α : Type) where
  | nil
  | leaf (name : ν) (value : α) (rest : Forest ν α)
  | node (name : ν) (sub rest : Forest ν α)
  deriving DecidableEq

namespace Forest
variable {ν α : Type}

def names : Forest ν α → List ν
  | nil => []
  | leaf name _ rest => name :: rest.names
  | node name _ rest => name :: rest.names

/-- The entries by their paths; a directory has no value. -/
def visits (dir : List ν) : Forest ν α → List (List ν × Option α)
  | nil => []
  | leaf name value rest => (dir ++ [name], some value) :: rest.visits dir
  | node name sub rest => (dir ++ [name], none) :: (sub.visits (dir ++ [name]) ++ rest.visits dir)

/-- No directory has two entries of one name. -/
def Distinct : Forest ν α → Prop
  | nil => True
  | leaf name _ rest => name ∉ rest.names ∧ rest.Distinct
  | node name sub rest => name ∉ rest.names ∧ sub.Distinct ∧ rest.Distinct

section Visits
variable {f : Forest ν α} {dir path : List ν} {x : Option α}

theorem names_eq_cons {name : ν} {names : List ν} (h : f.names = name :: names) :
    (∃ value rest, f = leaf name value rest ∧ rest.names = names) ∨
    ∃ sub rest, f = node name sub rest ∧ rest.names = names := by
  cases f with
  | nil => contradiction
  | leaf name' value rest =>
    obtain ⟨rfl, hrest⟩ := List.cons.inj h
    exact .inl ⟨value, rest, rfl, hrest⟩
  | node name' sub rest =>
    obtain ⟨rfl, hrest⟩ := List.cons.inj h
    exact .inr ⟨sub, rest, rfl, hrest⟩

theorem names_eq_nil (h : f.names = []) : f = nil := by
  cases f with
  | nil => rfl
  | _ => contradiction

theorem visits_below (h : (path, x) ∈ f.visits dir) : ∃ name ∈ f.names, ∃ r,
    path = dir ++ name :: r := by
  induction f generalizing dir with
  | nil => exact absurd h List.not_mem_nil
  | leaf name value rest ih =>
    rcases List.mem_cons.mp h with heq | h
    · exact ⟨name, List.mem_cons_self, [], congrArg Prod.fst heq⟩
    · obtain ⟨m, hm, hr⟩ := ih h
      exact ⟨m, List.mem_cons_of_mem _ hm, hr⟩
  | node name sub rest ihSub ihRest =>
    rcases List.mem_cons.mp h with heq | h
    · exact ⟨name, List.mem_cons_self, [], congrArg Prod.fst heq⟩
    rcases List.mem_append.mp h with h | h
    · obtain ⟨m, -, r, hr⟩ := ihSub h
      exact ⟨name, List.mem_cons_self, m :: r, by rw [hr, List.append_assoc]; rfl⟩
    · obtain ⟨m, hm, hr⟩ := ihRest h
      exact ⟨m, List.mem_cons_of_mem _ hm, hr⟩

/-- What comes later in a directory is not at the entry `name` or below it. -/
theorem visits_apart {name : ν} {r : List ν} (hname : name ∉ f.names) :
    dir ++ name :: r ∉ (f.visits dir).map Prod.fst := by
  intro hmem
  obtain ⟨⟨path, x⟩, h, heq⟩ := List.mem_map.mp hmem
  obtain ⟨m, hm, r', hpath⟩ := visits_below h
  have hsame : dir ++ name :: r = dir ++ m :: r' := heq.symm.trans hpath
  obtain ⟨rfl, -⟩ := List.cons.inj (List.append_cancel_left hsame)
  exact hname hm

theorem visits_nodup (h : f.Distinct) (dir : List ν) :
    ((f.visits dir).map Prod.fst).Nodup := by
  induction f generalizing dir with
  | nil => exact List.nodup_nil
  | leaf name value rest ih =>
    exact List.nodup_cons.mpr ⟨visits_apart h.1, ih h.2 dir⟩
  | node name sub rest ihSub ihRest =>
    obtain ⟨hname, hsub, hrest⟩ := h
    rw [visits, List.map_cons, List.map_append, List.nodup_cons]
    refine ⟨fun hmem => ?_, List.Nodup.append (ihSub hsub _) (ihRest hrest dir) ?_⟩
    · rcases List.mem_append.mp hmem with hmem | hmem
      · obtain ⟨⟨path, x⟩, hin, heq⟩ := List.mem_map.mp hmem
        obtain ⟨m, -, r, hpath⟩ := visits_below hin
        have hlen := congrArg List.length (heq.symm.trans hpath)
        simp at hlen
      · exact visits_apart hname hmem
    · intro path hmem hlater
      obtain ⟨⟨path', x⟩, hin, heq⟩ := List.mem_map.mp hmem
      obtain ⟨m, -, r, hpath⟩ := visits_below hin
      rw [← heq, hpath, List.append_assoc] at hlater
      exact visits_apart hname hlater

end Visits

/-! ### Walkers -/

/-- What the first `n` walkers have still to visit, the last one first. -/
def pending (dirs : ℕ → List ν) (rests : ℕ → Forest ν α) : ℕ → List (List ν × Option α)
  | 0 => []
  | n + 1 => (rests n).visits (dirs n) ++ pending dirs rests n

section Walkers
variable {dirs dirs' : ℕ → List ν} {rests rests' : ℕ → Forest ν α} {i n : ℕ}

theorem pending_congr (h : ∀ k < n, dirs k = dirs' k ∧ rests k = rests' k) :
    pending dirs rests n = pending dirs' rests' n := by
  induction n with
  | zero => rfl
  | succ n ih =>
    obtain ⟨hdir, hrest⟩ := h n (Nat.lt_succ_self n)
    rw [pending, pending, hdir, hrest, ih fun k hk => h k (Nat.lt_succ_of_lt hk)]

/-- The walkers behind `i` have finished. -/
theorem pending_at (hi : i < n) (hdone : ∀ k, i < k → k < n → rests k = nil) :
    pending dirs rests n = (rests i).visits (dirs i) ++ pending dirs rests i := by
  induction n with
  | zero => exact absurd hi (Nat.not_lt_zero i)
  | succ n ih =>
    rw [pending]
    rcases Nat.lt_succ_iff_lt_or_eq.mp hi with hlt | rfl
    · rw [hdone n hlt (Nat.lt_succ_self n), visits, List.nil_append]
      exact ih hlt fun k hk hkn => hdone k hk (Nat.lt_succ_of_lt hkn)
    · rfl

theorem pending_nil (h : ∀ k < n, rests k = nil) : pending dirs rests n = [] := by
  induction n with
  | zero => rfl
  | succ n ih =>
    rw [pending, h n (Nat.lt_succ_self n), ih fun k hk => h k (Nat.lt_succ_of_lt hk)]
    rfl

end Walkers
end Forest
end Base
