import AdvancedCProjects.Base.Bytes

/-!
# What a connection gives to its reader

The results of one `recv` after the other, and loops that go on until they have
received what was announced.
-/

namespace Base

/-- The end of the stream gives no bytes. -/
inductive RecvResult where
  | error
  | bytes (got : Bytes)
  deriving DecidableEq

namespace RecvResult

def length : RecvResult → ℕ
  | error => 0
  | bytes got => got.length

end RecvResult

/-- The results of all `recv`s under a limit; behind the end of the stream
nothing follows. -/
structure Incoming (limit : ℕ) where
  result : ℕ → RecvResult
  fits : ∀ n, (result n).length ≤ limit
  closed : ∀ n, result n = .bytes [] → result (n + 1) = .bytes []

namespace Incoming
variable {limit : ℕ} (c : Incoming limit)

def received : ℕ → ℕ
  | 0 => 0
  | n + 1 => received n + (c.result n).length

/-- All bytes at once, and then the end of the stream. -/
def whole (data : Bytes) (h : data.length ≤ limit) : Incoming limit where
  result n := if n = 0 then .bytes data else .bytes []
  fits n := by
    split
    · exact h
    · exact Nat.zero_le _
  closed n _ := by simp

variable {c}

theorem closed_from {n : ℕ} (h : c.result n = .bytes []) (k : ℕ) :
    c.result (n + k) = .bytes [] := by
  induction k with
  | zero => exact h
  | succ k ih => exact c.closed (n + k) ih

end Incoming

/-- A loop with one `recv` in its body. -/
structure RecvLoop (σ : Type) where
  running : σ → Prop
  body : σ → RecvResult → σ

namespace RecvLoop
variable {σ : Type} {limit : ℕ} (L : RecvLoop σ) (s : σ) (c : Incoming limit)

def after : ℕ → σ
  | 0 => s
  | n + 1 => L.body (after n) (c.result n)

def Ends : Prop := ∃ n, ¬ L.running (L.after s c n)

/-- Some turn of the loop receives nothing. -/
def Spins : Prop := ∃ n, L.running (L.after s c n) ∧ c.result n = .bytes []

/-- A loop that counts down what it receives and gives up when `recv` fails; it
stays as it is when it has ended. -/
structure Counts (limit : ℕ) (left : σ → ℤ) : Prop where
  bytes : ∀ s got, L.running s → got.length ≤ limit →
    (L.running (L.body s (.bytes got)) ↔ 0 < left s - got.length) ∧
    left (L.body s (.bytes got)) = left s - got.length
  error : ∀ s, L.running s → ¬ L.running (L.body s .error)
  ended : ∀ s r, ¬ L.running s → ¬ L.running (L.body s r)

namespace Counts
variable {L s c} {left : σ → ℤ}

theorem stays_ended (h : L.Counts limit left) {m n : ℕ} (hmn : m ≤ n)
    (hm : ¬ L.running (L.after s c m)) : ¬ L.running (L.after s c n) := by
  induction n, hmn using Nat.le_induction with
  | base => exact hm
  | succ n _ ih => exact h.ended _ _ ih

theorem turn (h : L.Counts limit left) {n : ℕ} (hn : L.running (L.after s c (n + 1))) :
    L.running (L.after s c n) ∧ ∃ got, c.result n = .bytes got ∧
      left (L.after s c (n + 1)) = left (L.after s c n) - got.length ∧
      0 < left (L.after s c (n + 1)) ∧ c.received (n + 1) = c.received n + got.length := by
  have hbefore : L.running (L.after s c n) := by
    by_contra hended
    exact h.ended _ _ hended hn
  have hstate : L.after s c (n + 1) = L.body (L.after s c n) (c.result n) := rfl
  have hsum : c.received (n + 1) = c.received n + (c.result n).length := rfl
  have hfits := c.fits n
  refine ⟨hbefore, ?_⟩
  cases hr : c.result n with
  | error =>
    rw [hstate, hr] at hn
    exact (h.error _ hbefore hn).elim
  | bytes got =>
    rw [hr] at hfits hsum hstate
    obtain ⟨hiff, hcount⟩ := h.bytes _ got hbefore hfits
    rw [hstate] at hn ⊢
    refine ⟨got, rfl, hcount, ?_, hsum⟩
    rw [hcount]
    exact hiff.mp hn

theorem running_left (h : L.Counts limit left) (n : ℕ) (hn : L.running (L.after s c n)) :
    left (L.after s c n) = left s - c.received n := by
  induction n with
  | zero => simp [after, Incoming.received]
  | succ n ih =>
    obtain ⟨hbefore, got, -, hcount, -, hsum⟩ := h.turn hn
    have hleft := ih hbefore
    omega

theorem running_pos (h : L.Counts limit left) (hs : L.running s ↔ 0 < left s) (n : ℕ)
    (hn : L.running (L.after s c n)) : 0 < left (L.after s c n) := by
  cases n with
  | zero => exact hs.mp hn
  | succ n =>
    obtain ⟨-, got, -, -, hpos, -⟩ := h.turn hn
    exact hpos

/-- A turn that receives nothing is followed by such turns for ever. -/
theorem spins_forever (h : L.Counts limit left) (hs : L.running s ↔ 0 < left s) {n : ℕ}
    (hn : L.running (L.after s c n)) (hr : c.result n = .bytes []) (k : ℕ) :
    L.running (L.after s c (n + k)) := by
  induction k with
  | zero => exact hn
  | succ k ih =>
    have hpos := h.running_pos hs (n + k) ih
    have hstate : L.after s c (n + (k + 1)) = L.body (L.after s c (n + k)) (.bytes []) := by
      rw [← Incoming.closed_from hr k]
      rfl
    have hiff := (h.bytes _ [] ih (Nat.zero_le limit)).1
    rw [hstate]
    apply hiff.mpr
    simpa using hpos

theorem not_ends_of_spins (h : L.Counts limit left) (hs : L.running s ↔ 0 < left s)
    (hspin : L.Spins s c) : ¬ L.Ends s c := by
  obtain ⟨n, hn, hr⟩ := hspin
  intro hends
  obtain ⟨m, hm⟩ := hends
  have hlate := h.stays_ended (Nat.le_add_left m n) hm
  exact hlate (h.spins_forever hs hn hr m)

theorem received_ge (h : L.Counts limit left) (hspin : ¬ L.Spins s c) (n : ℕ)
    (hn : L.running (L.after s c n)) : n ≤ c.received n := by
  induction n with
  | zero => exact Nat.zero_le _
  | succ n ih =>
    obtain ⟨hbefore, got, hr, -, -, hsum⟩ := h.turn hn
    have hge := ih hbefore
    cases got with
    | nil => exact (hspin ⟨n, hbefore, hr⟩).elim
    | cons b got =>
      rw [List.length_cons] at hsum
      omega

theorem ends_iff_not_spins (h : L.Counts limit left) (hs : L.running s ↔ 0 < left s) :
    L.Ends s c ↔ ¬ L.Spins s c := by
  refine ⟨fun hends hspin => h.not_ends_of_spins hs hspin hends, fun hspin => ?_⟩
  by_contra hends
  have hrun (n : ℕ) : L.running (L.after s c n) := by
    by_contra hn
    exact hends ⟨n, hn⟩
  -- more turns than announced bytes
  have hge := h.received_ge hspin _ (hrun (left s).toNat)
  have hleft := h.running_left _ (hrun (left s).toNat)
  have hpos := h.running_pos hs _ (hrun (left s).toNat)
  omega

/-- The loop ends exactly if the stream brings what was announced, or fails. -/
theorem ends_iff (h : L.Counts limit left) (hs : L.running s ↔ 0 < left s) :
    L.Ends s c ↔ left s ≤ 0 ∨ ∃ n, c.result n = .error ∨ left s ≤ c.received n := by
  constructor
  · intro hends
    by_contra hnot
    push Not at hnot
    obtain ⟨hpos, hmore⟩ := hnot
    have hrun (n : ℕ) : L.running (L.after s c n) := by
      induction n with
      | zero => exact hs.mpr hpos
      | succ n ih =>
        have hfits := c.fits n
        have hstate : L.after s c (n + 1) = L.body (L.after s c n) (c.result n) := rfl
        have hsum : c.received (n + 1) = c.received n + (c.result n).length := rfl
        have hlate := (hmore (n + 1)).2
        have hleft := h.running_left n ih
        cases hr : c.result n with
        | error => exact ((hmore n).1 hr).elim
        | bytes got =>
          rw [hr] at hfits hsum
          rw [hstate, hr, (h.bytes _ got ih hfits).1, hleft]
          simp only [RecvResult.length] at hsum
          omega
    obtain ⟨n, hn⟩ := hends
    exact hn (hrun n)
  · intro hor
    rcases hor with hzero | ⟨n, herr | hall⟩
    · exact ⟨0, fun hrun => absurd (hs.mp hrun) (not_lt.mpr hzero)⟩
    · by_cases hrun : L.running (L.after s c n)
      · refine ⟨n + 1, ?_⟩
        have hstate : L.after s c (n + 1) = L.body (L.after s c n) (c.result n) := rfl
        rw [hstate, herr]
        exact h.error _ hrun
      · exact ⟨n, hrun⟩
    · refine ⟨n, fun hrun => ?_⟩
      have hleft := h.running_left n hrun
      have hpos := h.running_pos hs n hrun
      omega

end Counts
end RecvLoop
end Base
