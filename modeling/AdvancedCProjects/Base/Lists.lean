import Mathlib.Algebra.GroupWithZero.Nat
import Mathlib.Data.List.Nodup

/-!
# Lists

The threads of a program are a list; a step of a thread replaces its element.
`flatMap f` collects what the threads have in hand, or what a loop appends.
-/

namespace Base

section Lists
variable {α β : Type} {xs ys : List α} {i : ℕ} {x y : α} {f : α → List β}

theorem take_append_take (k : ℕ) (a b : List α) :
    ((a.take k) ++ b).take k = (a ++ b).take k := by
  simp only [List.take_append, List.take_take, Nat.min_self, List.length_take]
  by_cases h : k ≤ a.length
  · simp [h]
  · rw [Nat.min_eq_right (by omega)]

/-- Pieces that a separator is written before, taken apart at it. -/
theorem splitOn_flatMap_cons [BEq α] [LawfulBEq α] {a : α} {pieces : List (List α)}
    (h : ∀ piece ∈ pieces, a ∉ piece) (front : List α) :
    (front ++ pieces.flatMap (a :: ·)).splitOn a = front.splitOn a ++ pieces := by
  induction pieces generalizing front with
  | nil => simp
  | cons piece pieces ih =>
    have hpiece : a ∉ piece := h piece List.mem_cons_self
    have hstep : front ++ (piece :: pieces).flatMap (a :: ·) =
        (front ++ a :: piece) ++ pieces.flatMap (a :: ·) := by simp
    rw [hstep, ih (fun p hp => h p (List.mem_cons_of_mem _ hp)), List.splitOn_append_cons_self,
      List.splitOn_eq_singleton hpiece]
    simp

/-- Of two lists neither of which begins the other, the place where they part. -/
theorem parting (h : ¬ xs <+: ys) (h' : ¬ ys <+: xs) : ∃ front x y xs' ys',
    xs = front ++ x :: xs' ∧ ys = front ++ y :: ys' ∧ x ≠ y := by
  induction xs generalizing ys with
  | nil => exact (h (List.nil_prefix)).elim
  | cons x xs ih =>
    cases ys with
    | nil => exact (h' (List.nil_prefix)).elim
    | cons y ys =>
      by_cases hxy : x = y
      · subst hxy
        obtain ⟨front, x', y', xs', ys', rfl, rfl, hne⟩ :=
          ih (fun hpre => h ((List.prefix_cons_inj x).mpr hpre))
            fun hpre => h' ((List.prefix_cons_inj x).mpr hpre)
        exact ⟨x :: front, x', y', xs', ys', rfl, rfl, hne⟩
      · exact ⟨[], x, y, xs, ys, rfl, rfl, hxy⟩

theorem takeWhile_reverse_eq_iff [DecidableEq α] {a : α} (h : a ∈ xs) :
    (xs.reverse.takeWhile (· ≠ a)).reverse = ys ↔ a ∉ ys ∧ a :: ys <:+ xs := by
  obtain ⟨back, front, hsplit, hback⟩ := List.eq_append_cons_of_mem (List.mem_reverse.mpr h)
  have htake : xs.reverse.takeWhile (· ≠ a) = back := by
    rw [hsplit, List.takeWhile_append_of_pos]
    · simp
    · intro b hb
      exact decide_eq_true fun heq => hback (heq ▸ hb)
  have hlast : a :: back.reverse <:+ xs := by
    refine ⟨front.reverse, ?_⟩
    rw [← List.reverse_reverse xs, hsplit]
    simp
  have hfree : a ∉ back.reverse := by simpa using hback
  have cut {zs ws : List α} (hzs : a ∉ ws) (hsuffix : a :: zs <:+ a :: ws) : zs = ws := by
    rcases List.suffix_cons_iff.mp hsuffix with heq | hinner
    · exact List.tail_eq_of_cons_eq heq
    · exact absurd (hinner.subset List.mem_cons_self) hzs
  rw [htake]
  constructor
  · rintro rfl
    exact ⟨hfree, hlast⟩
  · intro ⟨hys, hsuffix⟩
    rcases List.suffix_or_suffix_of_suffix hlast hsuffix with hle | hle
    · exact cut hys hle
    · exact (cut hfree hle).symm

theorem exists_suffix_iff [DecidableEq α] {a : α} :
    (∃ ys, a ∈ ys ∧ a :: ys <:+ xs) ↔ 2 ≤ xs.count a := by
  constructor
  · intro ⟨ys, hmem, hsuffix⟩
    have hle := hsuffix.sublist.count_le a
    have hpos := List.count_pos_iff.mpr hmem
    rw [List.count_cons_self] at hle
    omega
  · intro hcount
    have hmem : a ∈ xs := List.count_pos_iff.mp (by omega)
    obtain ⟨front, back, rfl, hfront⟩ := List.eq_append_cons_of_mem hmem
    refine ⟨back, ?_, List.suffix_append front (a :: back)⟩
    rw [List.count_append, List.count_eq_zero.mpr hfront, List.count_cons_self] at hcount
    exact List.count_pos_iff.mp (by omega)

theorem countP_or {p q : α → Bool} (h : ∀ x, ¬ (p x = true ∧ q x = true)) (xs : List α) :
    xs.countP (fun x => p x || q x) = xs.countP p + xs.countP q := by
  induction xs with
  | nil => rfl
  | cons x xs ih =>
    have hx := h x
    rw [List.countP_cons, List.countP_cons, List.countP_cons, ih]
    cases hp : p x <;> cases hq : q x <;> simp [hp, hq] at hx ⊢ <;> omega

theorem getElem?_set_some {k : ℕ} (h : (xs.set i x)[k]? = some y) :
    k = i ∧ y = x ∨ k ≠ i ∧ xs[k]? = some y := by
  by_cases hik : i = k
  · subst hik
    obtain ⟨hlt, heq⟩ := List.getElem?_eq_some_iff.mp h
    exact .inl ⟨rfl, heq ▸ List.getElem_set_self hlt⟩
  · rw [List.getElem?_set_ne hik] at h
    exact .inr ⟨Ne.symm hik, h⟩

theorem filter_ne_eq_eraseIdx [DecidableEq β] {key : α → β} (nodup : (xs.map key).Nodup)
    (h : xs[i]? = some x) : xs.filter (fun y => key y ≠ key x) = xs.eraseIdx i := by
  induction xs generalizing i with
  | nil => contradiction
  | cons y xs ih =>
    obtain ⟨hy, hrest⟩ := List.nodup_cons.mp nodup
    cases i with
    | zero =>
      obtain rfl : y = x := by simpa using h
      have hkept : xs.filter (fun z => key z ≠ key y) = xs := by
        refine List.filter_eq_self.mpr fun z hz => decide_eq_true fun heq => ?_
        exact hy (heq ▸ List.mem_map_of_mem hz)
      rw [List.filter_cons_of_neg (by simp), hkept, List.eraseIdx_cons_zero]
    | succ i =>
      have hne : key y ≠ key x := by
        intro heq
        exact hy (heq ▸ List.mem_map_of_mem (List.mem_of_getElem? h))
      rw [List.filter_cons_of_pos (by simpa using hne), List.eraseIdx_cons_succ, ih hrest h]

theorem set_split (h : xs[i]? = some x) :
    ∃ l₁ l₂, xs = l₁ ++ x :: l₂ ∧ ∀ y, xs.set i y = l₁ ++ y :: l₂ := by
  obtain ⟨hi, rfl⟩ := List.getElem?_eq_some_iff.mp h
  refine ⟨xs.take i, xs.drop (i + 1), by simp, fun y => ?_⟩
  rw [List.set_eq_take_append_cons_drop, if_pos hi]

theorem flatMap_set_congr (h : xs[i]? = some x) (hf : f y = f x) :
    (xs.set i y).flatMap f = xs.flatMap f := by
  obtain ⟨l₁, l₂, rfl, hset⟩ := set_split h
  simp only [hset, List.flatMap_append, List.flatMap_cons, hf]

theorem flatMap_set_alone (h : xs[i]? = some x)
    (alone : ∀ j z, xs[j]? = some z → j ≠ i → f z = []) (y : α) :
    (xs.set i y).flatMap f = f y := by
  obtain ⟨hi, -⟩ := List.getElem?_eq_some_iff.mp h
  have before : (xs.take i).flatMap f = [] := by
    refine List.flatMap_eq_nil_iff.mpr fun z hz => ?_
    obtain ⟨j, hj, rfl⟩ := List.mem_take_iff_getElem.mp hz
    exact alone j _ (List.getElem?_eq_getElem (by omega)) (by omega)
  have after : (xs.drop (i + 1)).flatMap f = [] := by
    refine List.flatMap_eq_nil_iff.mpr fun z hz => ?_
    obtain ⟨j, hj, rfl⟩ := List.mem_drop_iff_getElem.mp hz
    exact alone _ _ (List.getElem?_eq_getElem (by omega)) (by omega)
  rw [List.set_eq_take_append_cons_drop, if_pos hi, List.flatMap_append, List.flatMap_cons,
    before, after, List.nil_append, List.append_nil]

theorem flatMap_alone (h : xs[i]? = some x)
    (alone : ∀ j z, xs[j]? = some z → j ≠ i → f z = []) : xs.flatMap f = f x := by
  rw [← flatMap_set_alone h alone x, flatMap_set_congr h rfl]

theorem count_flatMap_set [BEq β] (h : xs[i]? = some x) (y : α) (b : β) :
    ((xs.set i y).flatMap f).count b + (f x).count b = (xs.flatMap f).count b + (f y).count b := by
  obtain ⟨l₁, l₂, rfl, hset⟩ := set_split h
  simp only [hset, List.flatMap_append, List.flatMap_cons, List.count_append]
  omega

theorem sum_map_set {f : α → ℕ} (h : xs[i]? = some x) (y : α) :
    ((xs.set i y).map f).sum + f x = (xs.map f).sum + f y := by
  obtain ⟨l₁, l₂, rfl, hset⟩ := set_split h
  simp only [hset, List.map_append, List.map_cons, List.sum_append, List.sum_cons]
  omega

/-- Of all elements only `x` is given another number. -/
theorem sum_map_alone {f f' : α → ℕ} (hnodup : xs.Nodup) (hx : x ∈ xs)
    (hsame : ∀ y ∈ xs, y ≠ x → f' y = f y) :
    (xs.map f').sum + f x = (xs.map f).sum + f' x := by
  obtain ⟨l₁, l₂, rfl⟩ := List.append_of_mem hx
  have hparts := List.nodup_middle.mp hnodup
  obtain ⟨hnew, -⟩ := List.nodup_cons.mp hparts
  have hleft : l₁.map f' = l₁.map f := List.map_congr_left fun y hy =>
    hsame y (List.mem_append_left _ hy) fun heq => hnew (heq ▸ List.mem_append_left _ hy)
  have hright : l₂.map f' = l₂.map f := List.map_congr_left fun y hy =>
    hsame y (List.mem_append_right _ (List.mem_cons_of_mem _ hy))
      fun heq => hnew (heq ▸ List.mem_append_right _ hy)
  simp only [List.map_append, List.map_cons, List.sum_append, List.sum_cons, hleft, hright]
  omega

theorem sum_map_filter {p : α → Bool} {f k : α → ℕ} (hp : ∀ x ∈ xs, p x = true → f x = k x)
    (hn : ∀ x ∈ xs, p x = false → k x = 0) : ((xs.filter p).map f).sum = (xs.map k).sum := by
  induction xs with
  | nil => rfl
  | cons x xs ih =>
    have hrest := ih (fun y hy => hp y (List.mem_cons_of_mem _ hy))
      fun y hy => hn y (List.mem_cons_of_mem _ hy)
    rw [List.map_cons, List.sum_cons, ← hrest]
    cases hx : p x with
    | true =>
      rw [List.filter_cons_of_pos hx, List.map_cons, List.sum_cons, hp x List.mem_cons_self hx]
    | false =>
      have hne : ¬ p x = true := by simp [hx]
      rw [List.filter_cons_of_neg hne, hn x List.mem_cons_self hx, Nat.zero_add]

theorem foldlM_append {step : List β → α → Option (List β)} (xs : List α)
    (h : ∀ x ∈ xs, ∀ done, step done x = some (done ++ f x)) (done : List β) :
    xs.foldlM step done = some (done ++ xs.flatMap f) := by
  induction xs generalizing done with
  | nil => simp
  | cons x xs ih =>
    have hrest := ih (fun y hy => h y (List.mem_cons_of_mem _ hy)) (done ++ f x)
    rw [List.foldlM_cons, h x List.mem_cons_self]
    simpa using hrest

theorem foldlM_front {step : List β → α → Option (List β)} (front : List β)
    (h : ∀ done x, step (front ++ done) x = (step done x).map (front ++ ·)) (xs : List α)
    (done : List β) : xs.foldlM step (front ++ done) = (xs.foldlM step done).map (front ++ ·) := by
  induction xs generalizing done with
  | nil => rfl
  | cons x xs ih =>
    rw [List.foldlM_cons, List.foldlM_cons, h]
    cases step done x with
    | none => rfl
    | some next => exact ih next

theorem foldlM_mono {step step' : β → α → Option β} {xs : List α} {done result : β}
    (hstep : ∀ done x result, step done x = some result → step' done x = some result)
    (h : xs.foldlM step done = some result) : xs.foldlM step' done = some result := by
  induction xs generalizing done with
  | nil => exact h
  | cons x xs ih =>
    obtain ⟨next, hnext, hrest⟩ := Option.bind_eq_some_iff.mp h
    rw [List.foldlM_cons, hstep done x next hnext]
    exact ih hrest

/-- A loop over the indices of a list is a loop over its elements. -/
theorem foldlM_range {g : β → ℕ → Option β} {step : β → α → Option β} {I : β → Prop} (k : ℕ)
    (hstep : ∀ done i x, I done → xs[i]? = some x → g done (k + i) = step done x)
    (hkeep : ∀ done x next, I done → step done x = some next → I next) {done : β}
    (hdone : I done) : (List.range' k xs.length).foldlM g done = xs.foldlM step done := by
  induction xs generalizing k done with
  | nil => rfl
  | cons x xs ih =>
    have hfirst : g done k = step done x := hstep done 0 x hdone rfl
    rw [List.length_cons, List.range'_succ, List.foldlM_cons, List.foldlM_cons, hfirst]
    cases hx : step done x with
    | none => rfl
    | some next =>
      refine ih (k + 1) (fun done i y hd hy => ?_) (hkeep done x next hdone hx)
      rw [Nat.add_right_comm]
      exact hstep done (i + 1) y hd hy

theorem mem_left_of_forall₂ {R : α → β → Prop} {l : List β} (h : List.Forall₂ R xs l)
    (hx : x ∈ xs) : ∃ b ∈ l, R x b := by
  induction h with
  | nil => exact absurd hx List.not_mem_nil
  | cons hab _ ih =>
    rcases List.mem_cons.mp hx with rfl | hx
    · exact ⟨_, List.mem_cons_self, hab⟩
    · obtain ⟨b, hb, hr⟩ := ih hx
      exact ⟨b, List.mem_cons_of_mem _ hb, hr⟩

theorem mem_right_of_forall₂ {R : α → β → Prop} {l : List β} {b : β} (h : List.Forall₂ R xs l)
    (hb : b ∈ l) : ∃ a ∈ xs, R a b := by
  induction h with
  | nil => exact absurd hb List.not_mem_nil
  | cons hab _ ih =>
    rcases List.mem_cons.mp hb with rfl | hb
    · exact ⟨_, List.mem_cons_self, hab⟩
    · obtain ⟨a, ha, hr⟩ := ih hb
      exact ⟨a, List.mem_cons_of_mem _ ha, hr⟩

end Lists
end Base
