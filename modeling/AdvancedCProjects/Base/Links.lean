import AdvancedCProjects.Base.Disk

/-!
# Symbolic links

What the kernel does with a path when links are followed. The number of links
is bounded, and what is left of the bound comes out with the place.
-/

namespace Base

/-- What is not a directory. -/
inductive Leaf (ν α : Type) where
  | regular (content : α)
  | link (absolute : Bool) (target : List (Component ν))
  deriving DecidableEq

abbrev Nodes (ν α : Type) := List ν → Option (Node (Leaf ν α))

def linkStart {ν : Type} (absolute : Bool) (p : List ν) : List ν := if absolute then [] else p

def Node.isLink {ν α : Type} : Node (Leaf ν α) → Bool
  | .file (.link _ _) => true
  | _ => false

namespace Nodes
variable {ν α : Type}

/-- The walk up to the first link; `follow` goes on there. -/
def walkWith (nodes : Nodes ν α) (links : ℕ)
    (follow : List ν → List (Component ν) → Option (List ν × ℕ)) :
    List ν → List (Component ν) → Option (List ν × ℕ)
  | p, [] => some (p, links)
  | p, c :: path => match nodes p, nodes (c.next p) with
    | some .dir, some (.file (.link absolute target)) =>
      follow (linkStart absolute p) (target ++ path)
    | some .dir, some _ => walkWith nodes links follow (c.next p) path
    | _, _ => none

/-- The place that a path leads to from `p`, with at most `links` links on the way. -/
def walk (nodes : Nodes ν α) :
    ℕ → List ν → List (Component ν) → Option (List ν × ℕ)
  | 0 => nodes.walkWith 0 fun _ _ => none
  | links + 1 => nodes.walkWith (links + 1) (nodes.walk links)

inductive Leads (nodes : Nodes ν α) : List ν → ℕ → List (Component ν) → List ν → ℕ → Prop where
  | done {p : List ν} {k : ℕ} : Leads nodes p k [] p k
  | next {p q : List ν} {k l : ℕ} {c : Component ν} {path : List (Component ν)}
    {x : Node (Leaf ν α)} : nodes p = some .dir → nodes (c.next p) = some x → x.isLink = false →
    Leads nodes (c.next p) k path q l → Leads nodes p k (c :: path) q l
  | link {p q : List ν} {k l : ℕ} {c : Component ν} {path target : List (Component ν)}
    {absolute : Bool} : nodes p = some .dir →
    nodes (c.next p) = some (.file (.link absolute target)) →
    Leads nodes (linkStart absolute p) k (target ++ path) q l →
    Leads nodes p (k + 1) (c :: path) q l

section Walks
variable {nodes nodes' : Nodes ν α} {p q m : List ν} {k l j : ℕ} {path path' : List (Component ν)}

theorem walkWith_leads
    {follow : List ν → List (Component ν) → Option (List ν × ℕ)}
    (hfollow : ∀ p path, follow p path = some (q, l) →
      ∃ j, k = j + 1 ∧ Leads nodes p j path q l)
    (h : nodes.walkWith k follow p path = some (q, l)) : Leads nodes p k path q l := by
  induction path generalizing p with
  | nil =>
    cases h
    exact .done
  | cons c path ih =>
    rw [walkWith] at h
    split at h
    · next hdir hlink =>
      obtain ⟨j, rfl, hrest⟩ := hfollow _ _ h
      exact .link hdir hlink hrest
    · next x hno hdir hx =>
      apply Leads.next hdir hx _ (ih h)
      cases x with
      | dir => rfl
      | file leaf =>
        cases leaf with
        | regular => rfl
        | link absolute target => exact (hno absolute target rfl).elim
    · contradiction

theorem leads_of_walk (h : nodes.walk k p path = some (q, l)) :
    Leads nodes p k path q l := by
  induction k generalizing p path with
  | zero => exact walkWith_leads (fun _ _ hno => by contradiction) h
  | succ k ih => exact walkWith_leads (fun _ _ hrest => ⟨k, rfl, ih hrest⟩) h

theorem Leads.walk (h : Leads nodes p k path q l) :
    nodes.walk k p path = some (q, l) := by
  induction h with
  | @done p k => cases k <;> rfl
  | @next p q k l c path x hdir hx hno _ ih =>
    have hstep (follow : List ν → List (Component ν) → Option (List ν × ℕ)) :
        nodes.walkWith k follow p (c :: path) = nodes.walkWith k follow (c.next p) path := by
      rw [walkWith, hdir, hx]
      cases x with
      | dir => rfl
      | file leaf =>
        cases leaf with
        | regular => rfl
        | link => contradiction
    cases k <;> exact (hstep _).trans ih
  | link hdir hlink _ ih =>
    rw [Nodes.walk, walkWith, hdir, hlink]
    exact ih

theorem walk_iff :
    nodes.walk k p path = some (q, l) ↔ Leads nodes p k path q l :=
  ⟨leads_of_walk, Leads.walk⟩

namespace Leads

theorem unique {q' : List ν} {l' : ℕ} (h : Leads nodes p k path q l)
    (h' : Leads nodes p k path q' l') : q = q' ∧ l = l' := by
  have heq := h.walk.symm.trans h'.walk
  simpa using heq

theorem mono (hsub : ∀ q x, nodes q = some x → nodes' q = some x)
    (h : Leads nodes p k path q l) : Leads nodes' p k path q l := by
  induction h with
  | done => exact .done
  | next hdir hx hno _ ih => exact .next (hsub _ _ hdir) (hsub _ _ hx) hno ih
  | link hdir hlink _ ih => exact .link (hsub _ _ hdir) (hsub _ _ hlink) ih

theorem more (h : Leads nodes p k path q l) (j : ℕ) : Leads nodes p (k + j) path q (l + j) := by
  induction h with
  | done => exact .done
  | next hdir hx hno _ ih => exact .next hdir hx hno ih
  | @link _ _ k _ _ _ _ _ hdir hlink _ ih =>
    rw [Nat.add_right_comm]
    exact .link hdir hlink ih

theorem le (h : Leads nodes p k path q l) : l ≤ k := by
  induction h with
  | done => exact Nat.le_refl _
  | next _ _ _ _ ih => exact ih
  | link _ _ _ ih => omega

theorem append (h : Leads nodes p k path m j) (h' : Leads nodes m j path' q l) :
    Leads nodes p k (path ++ path') q l := by
  induction h with
  | done => exact h'
  | next hdir hx hno _ ih => exact .next hdir hx hno (ih h')
  | link hdir hlink _ ih =>
    have hrest := ih h'
    rw [List.append_assoc] at hrest
    exact .link hdir hlink hrest

theorem split (h : Leads nodes p k (path ++ path') q l) :
    ∃ m j, Leads nodes p k path m j ∧ Leads nodes m j path' q l := by
  generalize hwhole : path ++ path' = whole at h
  induction h generalizing path with
  | @done p k =>
    obtain ⟨rfl, rfl⟩ := List.append_eq_nil_iff.mp hwhole
    exact ⟨p, k, .done, .done⟩
  | @next p q k l c rest x hdir hx hno hrest ih =>
    cases path with
    | nil =>
      rw [List.nil_append] at hwhole
      subst hwhole
      exact ⟨p, k, .done, .next hdir hx hno hrest⟩
    | cons c' path =>
      obtain ⟨rfl, rfl⟩ := List.cons.inj hwhole
      obtain ⟨m, j, hfirst, hlast⟩ := ih rfl
      exact ⟨m, j, .next hdir hx hno hfirst, hlast⟩
  | @link p q k l c rest target absolute hdir hlink hrest ih =>
    cases path with
    | nil =>
      rw [List.nil_append] at hwhole
      subst hwhole
      exact ⟨p, k + 1, .done, .link hdir hlink hrest⟩
    | cons c' path =>
      obtain ⟨rfl, rfl⟩ := List.cons.inj hwhole
      obtain ⟨m, j, hfirst, hlast⟩ := ih (List.append_assoc target path path')
      exact ⟨m, j, .link hdir hlink hfirst, hlast⟩

theorem there (hroot : nodes [] = some .dir) (h : Leads nodes p k path q l)
    (hp : ∃ x, nodes p = some x ∧ x.isLink = false) : ∃ x, nodes q = some x ∧ x.isLink = false := by
  induction h with
  | done => exact hp
  | next _ hx hno _ ih => exact ih ⟨_, hx, hno⟩
  | @link p _ _ _ _ _ _ absolute hdir _ _ ih =>
    apply ih
    cases absolute with
    | false => exact ⟨_, hdir, rfl⟩
    | true => exact ⟨_, hroot, rfl⟩

/-- A walk goes on with what is kept, or it needs something that is not. -/
theorem kept_or_needs (keep : List ν → Prop) (h : Leads nodes p k path q l) :
    (∀ nodes', (∀ s x, keep s → nodes s = some x → nodes' s = some x) →
      Leads nodes' p k path q l) ∨
    ∃ s, ¬ keep s ∧ nodes s ≠ none ∧ ∀ nodes', (∀ q x, nodes' q = some x → nodes q = some x) →
      nodes' s = none → ∀ q' l', ¬ Leads nodes' p k path q' l' := by
  have needs {p : List ν} {k : ℕ} {c : Component ν} {path : List (Component ν)} {s : List ν}
      (hs : s = p ∨ s = c.next p) (nodes' : Nodes ν α) (hnone : nodes' s = none)
      (q' : List ν) (l' : ℕ) : ¬ Leads nodes' p k (c :: path) q' l' := by
    intro hleads
    have hthere : nodes' p ≠ none ∧ nodes' (c.next p) ≠ none := by
      cases hleads with
      | next hdir hx => simp [hdir, hx]
      | link hdir hlink => simp [hdir, hlink]
    rcases hs with rfl | rfl
    · exact hthere.1 hnone
    · exact hthere.2 hnone
  induction h with
  | done => exact .inl fun _ _ => .done
  | @next p q k l c path x hdir hx hno _ ih =>
    by_cases hp : keep p
    case neg => exact .inr ⟨p, hp, by simp [hdir], fun nodes' _ => needs (.inl rfl) nodes'⟩
    by_cases hc : keep (c.next p)
    case neg => exact .inr ⟨_, hc, by simp [hx], fun nodes' _ => needs (.inr rfl) nodes'⟩
    rcases ih with hin | ⟨s, hs, hthere, hneeds⟩
    · exact .inl fun nodes' hkeep => .next (hkeep p _ hp hdir) (hkeep _ x hc hx) hno
        (hin nodes' hkeep)
    · refine .inr ⟨s, hs, hthere, fun nodes' hsub hnone q' l' hleads => ?_⟩
      cases hleads with
      | next _ _ _ hrest => exact hneeds nodes' hsub hnone q' l' hrest
      | link _ hlink =>
        obtain rfl := Option.some.inj (hx.symm.trans (hsub _ _ hlink))
        contradiction
  | @link p q k l c path target absolute hdir hlink _ ih =>
    by_cases hp : keep p
    case neg => exact .inr ⟨p, hp, by simp [hdir], fun nodes' _ => needs (.inl rfl) nodes'⟩
    by_cases hc : keep (c.next p)
    case neg => exact .inr ⟨_, hc, by simp [hlink], fun nodes' _ => needs (.inr rfl) nodes'⟩
    rcases ih with hin | ⟨s, hs, hthere, hneeds⟩
    · exact .inl fun nodes' hkeep => .link (hkeep p _ hp hdir) (hkeep _ _ hc hlink)
        (hin nodes' hkeep)
    · refine .inr ⟨s, hs, hthere, fun nodes' hsub hnone q' l' hleads => ?_⟩
      cases hleads with
      | next _ hx hno _ =>
        obtain rfl := Option.some.inj (hlink.symm.trans (hsub _ _ hx))
        contradiction
      | link _ hlink' hrest =>
        cases hlink.symm.trans (hsub _ _ hlink')
        exact hneeds nodes' hsub hnone q' l' hrest

end Leads
end Walks
end Nodes
end Base
