import AdvancedCProjects.Base.Lists
import AdvancedCProjects.Base.Machine
import Mathlib.Data.List.Nodup

/-!
# Waiting for a pipeline (terminal.c:15-25, 56-66, 121-123, 261-272)

Two parts of the program wait for the children: `main`, for one after the other,
and the handler of SIGCHLD, for the child that the signal names. The handler is
installed without SA_RESTART, so it ends a `waitpid` in which `main` is blocked.
-/

namespace AdvancedCProjects.Terminal
open Base

/-- What `waitpid` stores; `other` is neither WIFEXITED nor WIFSIGNALED. -/
inductive Status where
  | exited (code : ℕ)
  | signaled (signal : ℕ)
  | other
  deriving DecidableEq

inductive Child where
  | running
  | zombie
  | reaped
  deriving DecidableEq

inductive MainPc where
  /-- the fork of child `i` -/
  | fork (i : ℕ)
  /-- before and in `waitpid(children[i], &status, 0)` -/
  | call (i : ℕ)
  | blocked (i : ℕ)
  /-- behind it -/
  | print (i : ℕ)
  | done
  deriving DecidableEq

/-- `pending` is the `si_pid` of a SIGCHLD that has not been delivered; `reaped`
has the children in the order in which a `waitpid` returned them. -/
structure Waiting where
  main : MainPc
  children : List Child
  pending : Option ℕ
  status : Status
  printed : List Status
  reaped : List ℕ

inductive Event where
  | main
  | terminate (child : ℕ)
  | deliver
  deriving DecidableEq

namespace Waiting
variable (n : ℕ) (statuses : ℕ → Status)

/-- A `waitpid` that finds the child terminated. -/
def reap (child : ℕ) (s : Waiting) : Waiting :=
  { s with children := s.children.set child .reaped, reaped := s.reaped ++ [child] }

/-- `main` does not look at what its `waitpid` returns. -/
def collect (i : ℕ) (s : Waiting) : Waiting :=
  { s.reap i with status := statuses i, main := .print i }

def nextCall (i : ℕ) : MainPc := if i < n then .call i else .done

def mainStep (s : Waiting) : Option Waiting :=
  match s.main with
  | .fork i =>
    if i < n then some { s with children := s.children ++ [.running], main := .fork (i + 1) }
    else some { s with main := nextCall n 0 }
  | .call i => match s.children[i]? with
    | some .running => some { s with main := .blocked i }
    | some .zombie => some (s.collect statuses i)
    | _ => some { s with main := .print i }
  | .blocked i => if s.children[i]? = some .zombie then some (s.collect statuses i) else none
  | .print i => some { s with printed := s.printed ++ [s.status], main := nextCall n (i + 1) }
  | .done => none

/-- The child ends; its SIGCHLD is lost if there is one pending. -/
def terminate (child : ℕ) (s : Waiting) : Waiting :=
  { s with children := s.children.set child .zombie, pending := s.pending.or (some child) }

def interrupted : MainPc → MainPc
  | .blocked i => .print i
  | pc => pc

/-- `handle_sigchld`; the SIGTERM that it may send is ignored. -/
def handle (child : ℕ) (s : Waiting) : Waiting :=
  let s := { s with pending := none, main := interrupted s.main }
  if s.children[child]? = some .zombie then s.reap child else s

def next (s : Waiting) : Event → Option Waiting
  | .main => s.mainStep n statuses
  | .terminate child =>
    if s.children[child]? = some .running then some (s.terminate child) else none
  | .deliver => s.pending.map fun child => s.handle child

end Waiting

/-- The children of a pipeline of `n` commands terminate with `statuses`; `stale` is
what the variable `status` holds before the first `waitpid`. -/
def waiting (n : ℕ) (statuses : ℕ → Status) (stale : Status) : Machine Waiting Event where
  start s := s = ⟨.fork 0, [], none, stale, [], []⟩
  next := Waiting.next n statuses

/-- All children have terminated and been reaped once, and the statuses are theirs. -/
structure Collected (n : ℕ) (statuses : ℕ → Status) (s : Waiting) : Prop where
  children : ∀ i < n, s.children[i]? = some .reaped
  once : ∀ i < n, s.reaped.count i = 1
  printed : s.printed = (List.range n).map statuses

def MainPc.isBlocked : MainPc → Bool
  | .blocked _ => true
  | _ => false

/-- The handler runs only outside of `main`'s `waitpid`, for a child that has been
reaped already. -/
def Undisturbed (s : Waiting) : Event → Prop
  | .deliver => s.main.isBlocked = false ∧
      ∀ child ∈ s.pending, s.children[child]? = some .reaped
  | _ => True

instance (s : Waiting) : (a : Event) → Decidable (Undisturbed s a)
  | .deliver => inferInstanceAs (Decidable (_ ∧ _))
  | .main | .terminate _ => inferInstanceAs (Decidable True)

/-- What `main` does, with what it has tested. -/
inductive WaitMove (n : ℕ) (statuses : ℕ → Status) (s : Waiting) : MainPc → Waiting → Prop where
  | fork (i : ℕ) : i < n → WaitMove n statuses s (.fork i)
      { s with children := s.children ++ [.running], main := .fork (i + 1) }
  | forked (i : ℕ) : n ≤ i → WaitMove n statuses s (.fork i)
      { s with main := Waiting.nextCall n 0 }
  | block (i : ℕ) : s.children[i]? = some .running → WaitMove n statuses s (.call i)
      { s with main := .blocked i }
  | collect (i : ℕ) (pc : MainPc) : pc = .call i ∨ pc = .blocked i →
    s.children[i]? = some .zombie → WaitMove n statuses s pc (s.collect statuses i)
  | fail (i : ℕ) : s.children[i]? ≠ some .running → s.children[i]? ≠ some .zombie →
    WaitMove n statuses s (.call i) { s with main := .print i }
  | print (i : ℕ) : WaitMove n statuses s (.print i)
      { s with printed := s.printed ++ [s.status], main := Waiting.nextCall n (i + 1) }

theorem mainStep_move {n : ℕ} {statuses : ℕ → Status} {s t : Waiting}
    (h : s.mainStep n statuses = some t) : WaitMove n statuses s s.main t := by
  unfold Waiting.mainStep at h
  cases hpc : s.main with
  | fork i =>
    simp only [hpc] at h
    split at h
    · next hlt => exact Option.some.inj h ▸ .fork i hlt
    · next hge => exact Option.some.inj h ▸ .forked i (Nat.not_lt.mp hge)
  | call i =>
    simp only [hpc] at h
    split at h
    · next hrunning => exact Option.some.inj h ▸ .block i hrunning
    · next hzombie => exact Option.some.inj h ▸ .collect i _ (.inl rfl) hzombie
    · next hrunning hzombie => exact Option.some.inj h ▸ .fail i hrunning hzombie
  | blocked i =>
    simp only [hpc] at h
    split at h
    · next hzombie => exact Option.some.inj h ▸ .collect i _ (.inr rfl) hzombie
    · contradiction
  | print i => exact Option.some.inj (hpc ▸ h) ▸ .print i
  | done => simp [hpc] at h

section Progress
variable (n : ℕ)

/-- How many children have been forked, how many `main` has waited for, and how many
statuses it has printed. -/
def MainPc.forked : MainPc → ℕ
  | .fork i => i
  | _ => n

def MainPc.waited : MainPc → ℕ
  | .fork _ => 0
  | .call i | .blocked i => i
  | .print i => i + 1
  | .done => n

def MainPc.said : MainPc → ℕ
  | .fork _ => 0
  | .call i | .blocked i | .print i => i
  | .done => n

def MainPc.InRange : MainPc → Prop
  | .fork i => i ≤ n
  | .call i | .blocked i | .print i => i < n
  | .done => True

variable {n}

theorem nextCall_counts {k : ℕ} (hk : k ≤ n) :
    (Waiting.nextCall n k).forked n = n ∧ (Waiting.nextCall n k).waited n = k ∧
      (Waiting.nextCall n k).said n = k ∧ (Waiting.nextCall n k).InRange n := by
  unfold Waiting.nextCall
  split
  · next hlt => exact ⟨rfl, rfl, rfl, hlt⟩
  · next hge =>
    obtain rfl : k = n := by omega
    exact ⟨rfl, rfl, rfl, trivial⟩

theorem nextCall_ne {k i : ℕ} :
    Waiting.nextCall n k ≠ .print i ∧ Waiting.nextCall n k ≠ .blocked i := by
  unfold Waiting.nextCall
  split <;> exact ⟨fun h => MainPc.noConfusion h, fun h => MainPc.noConfusion h⟩

end Progress

/-- What holds as long as only `main` reaps: it has reaped the children it has waited
for, in their order, and printed their statuses. -/
structure Tidy (n : ℕ) (statuses : ℕ → Status) (s : Waiting) : Prop where
  size : s.children.length = s.main.forked n
  bound : s.main.InRange n
  reaped : s.reaped = List.range (s.main.waited n)
  taken : ∀ c, s.children[c]? = some .reaped ↔ c < s.main.waited n
  printed : s.printed = (List.range (s.main.said n)).map statuses
  status : ∀ i, s.main = .print i → s.status = statuses i

section Tidy
variable {n i c : ℕ} {statuses : ℕ → Status} {stale : Status} {s t : Waiting}

theorem Tidy.move (h : Tidy n statuses s) {pc : MainPc} {printed : List Status}
    (hsize : pc.forked n = s.main.forked n) (hbound : pc.InRange n)
    (hwaited : pc.waited n = s.main.waited n)
    (hprinted : printed = (List.range (pc.said n)).map statuses) (hpc : ∀ i, pc ≠ .print i) :
    Tidy n statuses { s with main := pc, printed := printed } where
  size := h.size.trans hsize.symm
  bound := hbound
  reaped := hwaited ▸ h.reaped
  taken := hwaited ▸ h.taken
  printed := hprinted
  status i hi := absurd hi (hpc i)

theorem Tidy.collect (h : Tidy n statuses s) (hin : i < n) (hsize : s.children.length = n)
    (hwaited : s.main.waited n = i) (hsaid : s.main.said n = i) :
    Tidy n statuses (s.collect statuses i) where
  size := (List.length_set ..).trans hsize
  bound := hin
  reaped := by
    show s.reaped ++ [i] = List.range (i + 1)
    rw [h.reaped, hwaited, List.range_succ]
  taken c := by
    show (s.children.set i .reaped)[c]? = _ ↔ c < i + 1
    by_cases hc : i = c
    · subst hc
      simp [hsize, hin]
    · rw [List.getElem?_set_ne hc, h.taken, hwaited]
      omega
  printed := by
    show s.printed = (List.range i).map statuses
    rw [h.printed, hsaid]
  status j hj := by
    obtain rfl := MainPc.print.inj hj
    rfl

theorem Tidy.fork (h : Tidy n statuses s) (hmain : s.main = .fork i) (hlt : i < n) :
    Tidy n statuses { s with children := s.children ++ [.running], main := .fork (i + 1) } where
  size := by
    rw [List.length_append, h.size, hmain]
    rfl
  bound := hlt
  reaped := h.reaped.trans (by rw [hmain]; rfl)
  taken c := by
    constructor
    · intro hc
      rcases Nat.lt_or_ge c s.children.length with hold | hnew
      · rw [List.getElem?_append_left hold, h.taken, hmain] at hc
        exact hc
      · rw [List.getElem?_append_right hnew] at hc
        obtain h | h := List.mem_singleton.mp (List.mem_of_getElem? hc)
    · intro hc
      exact absurd hc (Nat.not_lt_zero c)
  printed := h.printed.trans (by rw [hmain]; rfl)
  status _ hi := MainPc.noConfusion hi

theorem Tidy.mainStep (h : Tidy n statuses s) (hn : s.mainStep n statuses = some t) :
    Tidy n statuses t := by
  have hmove := mainStep_move hn
  have hbound := h.bound
  have hsize := h.size
  have hprinted := h.printed
  have htaken := h.taken
  generalize hmain : s.main = pc at hmove hbound hsize hprinted htaken
  cases hmove with
  | fork i hlt => exact h.fork hmain hlt
  | forked i hge =>
    obtain ⟨hforked, hwaited, hsaid, hin⟩ := nextCall_counts (Nat.zero_le n)
    have hi : i = n := Nat.le_antisymm hbound hge
    refine h.move ?_ hin ?_ ?_ fun _ => nextCall_ne.1
    · rw [hforked, hmain, hi]
      rfl
    · rw [hwaited, hmain]
      rfl
    · rw [hsaid, hprinted]
      rfl
  | block i hrunning =>
    exact h.move (by rw [hmain]; rfl) hbound (by rw [hmain]; rfl) hprinted
      fun _ hi => MainPc.noConfusion hi
  | collect i pc hpc hzombie =>
    rcases hpc with rfl | rfl
    all_goals exact h.collect hbound hsize (by rw [hmain]; rfl) (by rw [hmain]; rfl)
  | fail i hrunning hzombie =>
    -- Child `i` has not been waited for, so it is there and has not been reaped.
    have hlt : i < s.children.length := hsize ▸ hbound
    have hreaped : s.children[i]? ≠ some .reaped := fun hc =>
      absurd ((htaken i).mp hc) (Nat.lt_irrefl i)
    rw [List.getElem?_eq_getElem hlt] at hrunning hzombie hreaped
    cases hstate : s.children[i] with
    | running => exact absurd (congrArg some hstate) hrunning
    | zombie => exact absurd (congrArg some hstate) hzombie
    | reaped => exact absurd (congrArg some hstate) hreaped
  | print i =>
    obtain ⟨hforked, hwaited, hsaid, hin⟩ := nextCall_counts (Nat.succ_le_of_lt hbound)
    refine h.move ?_ hin ?_ ?_ fun _ => nextCall_ne.1
    · rw [hforked, hmain]
      rfl
    · rw [hwaited, hmain]
      rfl
    · rw [hsaid, List.range_succ, List.map_append, hprinted, h.status i hmain]
      rfl

theorem Tidy.terminate (h : Tidy n statuses s) (hrun : s.children[c]? = some .running) :
    Tidy n statuses (s.terminate c) where
  size := (List.length_set ..).trans h.size
  bound := h.bound
  reaped := h.reaped
  taken k := by
    show (s.children.set c .zombie)[k]? = _ ↔ k < s.main.waited n
    rw [← h.taken]
    by_cases hk : c = k
    · subst hk
      obtain ⟨hlt, -⟩ := List.getElem?_eq_some_iff.mp hrun
      rw [List.getElem?_set_self hlt, hrun]
      simp
    · rw [List.getElem?_set_ne hk]
  printed := h.printed
  status := h.status

theorem Tidy.handle (h : Tidy n statuses s) (hpc : s.main.isBlocked = false)
    (hreaped : s.children[c]? = some .reaped) : Tidy n statuses (s.handle c) := by
  have hmain : Waiting.interrupted s.main = s.main := by
    revert hpc
    cases s.main with
    | blocked i => exact fun h => Bool.noConfusion h
    | _ => exact fun _ => rfl
  have hhandle : s.handle c = { s with pending := none } := by
    simp [Waiting.handle, hmain, hreaped]
  rw [hhandle]
  exact ⟨h.size, h.bound, h.reaped, h.taken, h.printed, h.status⟩

theorem tidy_inductive (n : ℕ) (statuses : ℕ → Status) (stale : Status) :
    (waiting n statuses stale).Inductive Undisturbed (Tidy n statuses) where
  base s hs := by
    subst hs
    refine ⟨rfl, Nat.zero_le n, rfl, ?_, rfl, fun _ hi => MainPc.noConfusion hi⟩
    intro c
    simp [MainPc.waited]
  keep s a t h ha hn := by
    cases a with
    | main => exact h.mainStep hn
    | terminate c =>
      simp only [waiting, Waiting.next] at hn
      split at hn
      · next hrun =>
        obtain rfl := Option.some.inj hn
        exact h.terminate hrun
      · contradiction
    | deliver =>
      obtain ⟨c, hc, rfl⟩ := Option.map_eq_some_iff.mp hn
      exact h.handle ha.1 (ha.2 c hc)

theorem Tidy.collected (h : Tidy n statuses s) (hdone : s.main = .done) :
    Collected n statuses s where
  children i hi := (h.taken i).mpr (by rw [hdone]; exact hi)
  once i hi := by
    rw [h.reaped, hdone]
    exact List.count_eq_one_of_mem List.nodup_range (List.mem_range.mpr hi)
  printed := by
    rw [h.printed, hdone]
    rfl

end Tidy

section Disturbed

/-- A child that has ended stays so, and one that has been reaped too. -/
structure Ages (old new : List Child) : Prop where
  reaped : ∀ c : ℕ, old[c]? = some Child.reaped → new[c]? = some Child.reaped
  zombie : ∀ c : ℕ, old[c]? = some Child.zombie →
    new[c]? = some Child.zombie ∨ new[c]? = some Child.reaped

variable {old : List Child} {n i c : ℕ} {statuses : ℕ → Status} {stale : Status} {s t u : Waiting}
  {a : Event}

theorem Ages.refl : Ages old old := ⟨fun _ h => h, fun _ h => .inl h⟩

theorem Ages.append {more : List Child} : Ages old (old ++ more) where
  reaped c h := by
    obtain ⟨hlt, -⟩ := List.getElem?_eq_some_iff.mp h
    rwa [List.getElem?_append_left hlt]
  zombie c h := by
    obtain ⟨hlt, -⟩ := List.getElem?_eq_some_iff.mp h
    rw [List.getElem?_append_left hlt]
    exact .inl h

theorem Ages.set {child : Child} (hreaped : old[i]? ≠ some .reaped)
    (hzombie : old[i]? = some .zombie → child = .reaped) : Ages old (old.set i child) where
  reaped c hc := by
    have hne : i ≠ c := by
      rintro rfl
      exact hreaped hc
    rwa [List.getElem?_set_ne hne]
  zombie c hc := by
    by_cases hic : i = c
    · subst hic
      obtain ⟨hlt, -⟩ := List.getElem?_eq_some_iff.mp hc
      rw [List.getElem?_set_self hlt, hzombie hc]
      exact .inr rfl
    · rw [List.getElem?_set_ne hic]
      exact .inl hc

theorem Ages.reap (h : old[i]? = some .zombie) : Ages old (old.set i .reaped) := by
  apply Ages.set
  · simp [h]
  · exact fun _ => rfl

theorem Ages.terminate (h : old[i]? = some .running) : Ages old (old.set i .zombie) := by
  apply Ages.set
  · simp [h]
  · simp [h]

theorem handle_cases (c : ℕ) (s : Waiting) :
    s.children[c]? = some .zombie ∧ s.handle c =
      { s with pending := none, main := Waiting.interrupted s.main,
               children := s.children.set c .reaped, reaped := s.reaped ++ [c] } ∨
    s.children[c]? ≠ some .zombie ∧
      s.handle c = { s with pending := none, main := Waiting.interrupted s.main } := by
  unfold Waiting.handle
  by_cases h : s.children[c]? = some .zombie
  · exact .inl ⟨h, if_pos h⟩
  · exact .inr ⟨h, if_neg h⟩

theorem interrupted_counts (pc : MainPc) :
    (Waiting.interrupted pc).forked n = pc.forked n ∧
      pc.waited n ≤ (Waiting.interrupted pc).waited n ∧
      (pc.InRange n → (Waiting.interrupted pc).InRange n) ∧
      ∀ i, Waiting.interrupted pc ≠ .blocked i := by
  cases pc with
  | blocked i => exact ⟨rfl, Nat.le_succ i, id, fun _ h => MainPc.noConfusion h⟩
  | _ => exact ⟨rfl, Nat.le_refl _, id, fun _ h => MainPc.noConfusion h⟩

theorem blocked_of_isBlocked {pc : MainPc} (h : pc.isBlocked = true) : ∃ i, pc = .blocked i := by
  cases pc with
  | blocked i => exact ⟨i, rfl⟩
  | _ => contradiction

theorem forked_le {pc : MainPc} (h : pc.InRange n) : pc.forked n ≤ n := by
  cases pc with
  | fork i => exact h
  | _ => exact Nat.le_refl n

structure Sound (n : ℕ) (statuses : ℕ → Status) (stale : Status) (s : Waiting) : Prop where
  size : s.children.length = s.main.forked n
  bound : s.main.InRange n
  fetched : ∀ x, x = s.status ∨ x ∈ s.printed →
    x = stale ∨ ∃ c, s.children[c]? = some .reaped ∧ x = statuses c
  pending : ∀ c, s.pending = some c →
    s.children[c]? = some .zombie ∨ s.children[c]? = some .reaped
  blocked : ∀ i, s.main = .blocked i → s.children[i]? ≠ some .reaped

theorem Sound.next (h : Sound n statuses stale s) (hages : Ages s.children t.children)
    (size : t.children.length = t.main.forked n) (bound : t.main.InRange n)
    (fetched : ∀ x, x = t.status ∨ x ∈ t.printed →
      (x = s.status ∨ x ∈ s.printed) ∨ ∃ c, t.children[c]? = some .reaped ∧ x = statuses c)
    (pending : ∀ c, t.pending = some c → s.pending = some c ∨ t.children[c]? = some .zombie)
    (blocked : ∀ i, t.main = .blocked i → t.children[i]? ≠ some .reaped) :
    Sound n statuses stale t where
  size := size
  bound := bound
  fetched x hx := by
    rcases fetched x hx with hold | hnew
    · rcases h.fetched x hold with hstale | ⟨c, hc, heq⟩
      · exact .inl hstale
      · exact .inr ⟨c, hages.reaped c hc, heq⟩
    · exact .inr hnew
  pending c hc := by
    rcases pending c hc with hold | hnew
    · rcases h.pending c hold with hz | hr
      · exact hages.zombie c hz
      · exact .inr (hages.reaped c hr)
    · exact .inl hnew
  blocked := blocked

theorem Sound.mainStep (h : Sound n statuses stale s) (hn : s.mainStep n statuses = some t) :
    Sound n statuses stale t := by
  have hmove := mainStep_move hn
  have hbound := h.bound
  have hsize := h.size
  generalize hmain : s.main = pc at hmove hbound hsize
  cases hmove with
  | fork i hlt =>
    refine h.next .append ?_ hlt (fun _ => .inl) (fun _ => .inl) fun _ hi => MainPc.noConfusion hi
    rw [List.length_append, hsize]
    rfl
  | forked i hge =>
    obtain ⟨hforked, -, -, hin⟩ := nextCall_counts (Nat.zero_le n)
    have hi : i = n := Nat.le_antisymm hbound hge
    refine h.next .refl ?_ hin (fun _ => .inl) (fun _ => .inl) ?_
    · rw [hforked, hsize, hi]
      rfl
    · exact fun _ hi => absurd hi nextCall_ne.2
  | block i hrunning =>
    refine h.next .refl hsize hbound (fun _ => .inl) (fun _ => .inl) ?_
    intro j hj
    obtain rfl := MainPc.blocked.inj hj
    show s.children[i]? ≠ _
    rw [hrunning]
    simp
  | collect i pc hpc hzombie =>
    have hin : i < n ∧ s.children.length = n := by
      rcases hpc with rfl | rfl
      all_goals exact ⟨hbound, hsize⟩
    have hi : (s.children.set i .reaped)[i]? = some .reaped :=
      List.getElem?_set_self (hin.2 ▸ hin.1)
    refine h.next (.reap hzombie) ((List.length_set ..).trans hin.2) hin.1 ?_ (fun _ => .inl)
      fun _ hi => MainPc.noConfusion hi
    rintro x (rfl | hx)
    · exact .inr ⟨i, hi, rfl⟩
    · exact .inl (.inr hx)
  | fail i hrunning hzombie =>
    exact h.next .refl hsize hbound (fun _ => .inl) (fun _ => .inl) fun _ hi =>
      MainPc.noConfusion hi
  | print i =>
    obtain ⟨hforked, -, -, hin⟩ := nextCall_counts (Nat.succ_le_of_lt hbound)
    refine h.next .refl ?_ hin ?_ (fun _ => .inl) ?_
    · rw [hforked, hsize]
      rfl
    · rintro x (rfl | hx)
      · exact .inl (.inl rfl)
      · rcases List.mem_append.mp hx with hx | hx
        · exact .inl (.inr hx)
        · exact .inl (.inl (List.mem_singleton.mp hx))
    · exact fun _ hi => absurd hi nextCall_ne.2

theorem Sound.handle (h : Sound n statuses stale s) : Sound n statuses stale (s.handle c) := by
  obtain ⟨hforked, -, hin, hpc⟩ := interrupted_counts (n := n) s.main
  rcases handle_cases c s with ⟨hzombie, heq⟩ | ⟨-, heq⟩
  · rw [heq]
    exact h.next (.reap hzombie) ((List.length_set ..).trans (h.size.trans hforked.symm))
      (hin h.bound) (fun _ => .inl) (fun _ hc => absurd hc (Option.some_ne_none _).symm)
      fun i hi => absurd hi (hpc i)
  · rw [heq]
    exact h.next .refl (h.size.trans hforked.symm) (hin h.bound) (fun _ => .inl)
      (fun _ hc => absurd hc (Option.some_ne_none _).symm) fun i hi => absurd hi (hpc i)

theorem sound_inductive (n : ℕ) (statuses : ℕ → Status) (stale : Status) :
    (waiting n statuses stale).Inductive (fun _ _ => True) (Sound n statuses stale) where
  base s hs := by
    subst hs
    refine ⟨rfl, Nat.zero_le n, ?_, fun _ hc => absurd hc (Option.some_ne_none _).symm,
      fun _ hi => MainPc.noConfusion hi⟩
    rintro x (rfl | hx)
    · exact .inl rfl
    · exact absurd hx List.not_mem_nil
  keep s a t h _ hn := by
    cases a with
    | main => exact h.mainStep hn
    | terminate c =>
      simp only [waiting, Waiting.next] at hn
      split at hn
      · next hrunning =>
        obtain rfl := Option.some.inj hn
        obtain ⟨hlt, -⟩ := List.getElem?_eq_some_iff.mp hrunning
        refine h.next (.terminate hrunning) ((List.length_set ..).trans h.size) h.bound
          (fun _ => .inl) ?_ ?_
        · intro k hk
          cases hpending : s.pending with
          | some k' =>
            left
            simpa [Waiting.terminate, hpending] using hk
          | none =>
            right
            simp only [Waiting.terminate, hpending, Option.none_or, Option.some.injEq] at hk
            exact hk ▸ List.getElem?_set_self hlt
        · intro i hi
          show (s.children.set c .zombie)[i]? ≠ _
          by_cases hci : c = i
          · subst hci
            rw [List.getElem?_set_self hlt]
            simp
          · rw [List.getElem?_set_ne hci]
            exact h.blocked i hi
      · contradiction
    | deliver =>
      obtain ⟨c, -, rfl⟩ := Option.map_eq_some_iff.mp hn
      exact h.handle

/-- The status of child `c` can no longer come to `main`. -/
structure Lost (n : ℕ) (statuses : ℕ → Status) (c : ℕ) (s : Waiting) : Prop where
  passed : s.children[c]? = some .reaped ∨ c < s.main.waited n
  status : s.status ≠ statuses c
  printed : s.printed[c]? ≠ some (statuses c)

theorem Lost.next (h : Lost n statuses c s) (hages : Ages s.children t.children)
    (waited : s.main.waited n ≤ t.main.waited n) (status : t.status ≠ statuses c)
    (printed : t.printed[c]? ≠ some (statuses c)) : Lost n statuses c t where
  passed := by
    rcases h.passed with hreaped | hwaited
    · exact .inl (hages.reaped c hreaped)
    · exact .inr (Nat.lt_of_lt_of_le hwaited waited)
  status := status
  printed := printed

theorem Lost.mainStep (hinj : Function.Injective statuses) (hs : Sound n statuses stale s)
    (h : Lost n statuses c s) (hn : s.mainStep n statuses = some t) : Lost n statuses c t := by
  have hmove := mainStep_move hn
  have hbound := hs.bound
  have hpassed := h.passed
  generalize hmain : s.main = pc at hmove hbound hpassed
  cases hmove with
  | fork i hlt =>
    refine h.next .append ?_ h.status h.printed
    rw [hmain]
    exact Nat.le_refl 0
  | forked i hge =>
    refine h.next .refl ?_ h.status h.printed
    rw [hmain]
    exact Nat.zero_le _
  | block i hrunning =>
    refine h.next .refl ?_ h.status h.printed
    rw [hmain]
    exact Nat.le_refl i
  | collect i pc hpc hzombie =>
    have hwaited : s.main.waited n = i := by
      rw [hmain]
      rcases hpc with rfl | rfl
      all_goals rfl
    -- `main` gets the status of another child, which it had not waited for.
    have hic : i ≠ c := by
      rintro rfl
      rcases h.passed with hreaped | hlt
      · rw [hzombie] at hreaped
        contradiction
      · omega
    refine h.next (.reap hzombie) ?_ (fun heq => hic (hinj heq)) h.printed
    rw [hwaited]
    exact Nat.le_succ i
  | fail i hrunning hzombie =>
    refine h.next .refl ?_ h.status h.printed
    rw [hmain]
    exact Nat.le_succ i
  | print i =>
    refine h.next .refl ?_ h.status ?_
    · rw [hmain, (nextCall_counts (Nat.succ_le_of_lt hbound)).2.1]
      exact Nat.le_refl (i + 1)
    · show (s.printed ++ [s.status])[c]? ≠ _
      rcases Nat.lt_or_ge c s.printed.length with hold | hnew
      · rw [List.getElem?_append_left hold]
        exact h.printed
      · rw [List.getElem?_append_right hnew]
        intro hc
        exact h.status (List.mem_singleton.mp (List.mem_of_getElem? hc)).symm

theorem Lost.step (hinj : Function.Injective statuses) (hs : Sound n statuses stale s)
    (h : Lost n statuses c s) (hn : (waiting n statuses stale).next s a = some t) :
    Lost n statuses c t := by
  cases a with
  | main => exact h.mainStep hinj hs hn
  | terminate i =>
    simp only [waiting, Waiting.next] at hn
    split at hn
    · next hrunning =>
      obtain rfl := Option.some.inj hn
      exact h.next (.terminate hrunning) (Nat.le_refl _) h.status h.printed
    · contradiction
  | deliver =>
    obtain ⟨i, -, rfl⟩ := Option.map_eq_some_iff.mp hn
    obtain ⟨-, hwaited, -, -⟩ := interrupted_counts (n := n) s.main
    rcases handle_cases i s with ⟨hzombie, heq⟩ | ⟨-, heq⟩
    · rw [heq]
      exact h.next (.reap hzombie) hwaited h.status h.printed
    · rw [heq]
      exact h.next .refl hwaited h.status h.printed

theorem Sound.not_fetched (h : Sound n statuses stale s) (hinj : Function.Injective statuses)
    (hstale : ∀ i, statuses i ≠ stale) (hc : s.children[c]? ≠ some .reaped) :
    s.status ≠ statuses c ∧ s.printed[c]? ≠ some (statuses c) := by
  have hnot : ∀ x, x = s.status ∨ x ∈ s.printed → x ≠ statuses c := by
    intro x hx heq
    rcases h.fetched x hx with hold | ⟨k, hk, hnew⟩
    · exact hstale c (heq.symm.trans hold)
    · exact hc (hinj (heq.symm.trans hnew) ▸ hk)
  exact ⟨hnot _ (.inl rfl), fun hp => hnot _ (.inr (List.mem_of_getElem? hp)) rfl⟩

theorem Sound.disturbed (h : Sound n statuses stale s) (hinj : Function.Injective statuses)
    (hstale : ∀ i, statuses i ≠ stale) (hbad : ¬ Undisturbed s a)
    (hn : (waiting n statuses stale).next s a = some t) : ∃ c < n, Lost n statuses c t := by
  cases a with
  | main => exact absurd trivial hbad
  | terminate i => exact absurd trivial hbad
  | deliver =>
    obtain ⟨i, hpending, rfl⟩ := Option.map_eq_some_iff.mp hn
    obtain ⟨-, hwaited, -, -⟩ := interrupted_counts (n := n) s.main
    by_cases hblocked : s.main.isBlocked = true
    · -- `waitpid` of child `k` returns without it.
      obtain ⟨k, hk⟩ := blocked_of_isBlocked hblocked
      obtain ⟨hstatus, hprinted⟩ := h.not_fetched hinj hstale (h.blocked k hk)
      have hbound := h.bound
      rw [hk] at hbound
      have hpassed : k < (Waiting.interrupted s.main).waited n := by
        rw [hk]
        exact Nat.lt_succ_self k
      refine ⟨k, hbound, ?_⟩
      rcases handle_cases i s with ⟨-, heq⟩ | ⟨-, heq⟩
      all_goals
        rw [heq]
        exact ⟨.inr hpassed, hstatus, hprinted⟩
    · -- The handler reaps the child itself.
      have hnot : s.children[i]? ≠ some .reaped := by
        intro hreaped
        refine hbad ⟨Bool.eq_false_iff.mpr hblocked, fun k hk => ?_⟩
        obtain rfl : i = k := Option.some.inj (hpending.symm.trans hk)
        exact hreaped
      have hzombie := (h.pending i hpending).resolve_right hnot
      obtain ⟨hlt, -⟩ := List.getElem?_eq_some_iff.mp hzombie
      obtain ⟨hstatus, hprinted⟩ := h.not_fetched hinj hstale hnot
      refine ⟨i, ?_, ?_⟩
      · exact Nat.lt_of_lt_of_le (h.size ▸ hlt) (forked_le h.bound)
      · rcases handle_cases i s with ⟨-, heq⟩ | ⟨hother, -⟩
        · rw [heq]
          exact ⟨.inl (List.getElem?_set_self hlt), hstatus, hprinted⟩
        · exact absurd hzombie hother

end Disturbed

/-- If every run of the handler finds `main` outside of its `waitpid` and the child
reaped, the loop collects all children; after any other run of the handler it gets the
status of a child wrong, if the statuses are different. -/
theorem children_collected (n : ℕ) (statuses : ℕ → Status) (stale : Status) :
    (∀ s, (waiting n statuses stale).Reaches Undisturbed s → s.main = .done →
      Collected n statuses s) ∧
    (Function.Injective statuses → (∀ i, statuses i ≠ stale) →
      ∀ s a t u, (waiting n statuses stale).Reachable s → ¬ Undisturbed s a →
        (waiting n statuses stale).next s a = some t →
        (waiting n statuses stale).Path₀ (fun _ _ => True) t u → u.main = .done →
          ¬ Collected n statuses u) := by
  constructor
  · intro s hs hdone
    exact ((tidy_inductive n statuses stale).holds hs).collected hdone
  · intro hinj hstale s a t u hs hbad hn hpath _ hcollected
    have hsound := (sound_inductive n statuses stale).holds hs
    obtain ⟨c, hc, hlost⟩ := hsound.disturbed hinj hstale hbad hn
    have hend := hpath.keep (I := fun s => Sound n statuses stale s ∧ Lost n statuses c s)
      ⟨(sound_inductive n statuses stale).keep s a t hsound trivial hn, hlost⟩
      fun s a t h _ hn => ⟨(sound_inductive n statuses stale).keep s a t h.1 trivial hn,
        h.2.step hinj h.1 hn⟩
    refine hend.2.printed ?_
    rw [hcollected.printed]
    simp [hc]

/-- The child ends while `main` waits for it, or before. -/
theorem oneCommand_collected :
    Collected 1 (fun _ => .exited 7) ⟨.done, [.reaped], none, .exited 7, [.exited 7], [0]⟩ ∧
    ¬ Collected 1 Status.exited ⟨.done, [.reaped], none, .other, [.other], [0]⟩ := by
  have hquiet : ((waiting 1 (fun _ => .exited 7) .other).guarded Undisturbed).run
      ⟨.fork 0, [], none, .other, [], []⟩
      [.main, .main, .main, .terminate 0, .main, .deliver, .main] =
      some ⟨.done, [.reaped], none, .exited 7, [.exited 7], [0]⟩ := rfl
  have hearly : (waiting 1 Status.exited .other).run ⟨.fork 0, [], none, .other, [], []⟩
      [.main, .terminate 0] = some ⟨.fork 1, [.zombie], some 0, .other, [], []⟩ := rfl
  refine ⟨(children_collected 1 _ _).1 _ (Machine.Reaches.run (.start rfl) _ hquiet) rfl, ?_⟩
  exact (children_collected 1 Status.exited .other).2 (fun _ _ h => Status.exited.inj h)
    (fun _ h => Status.noConfusion h) _ .deliver ⟨.fork 1, [.reaped], none, .other, [], [0]⟩ _
    (Machine.Reachable.run (.start rfl) _ hearly) (by decide) rfl
    (.head ⟨.main, trivial, rfl⟩ (.head ⟨.main, trivial, rfl⟩ (.single ⟨.main, trivial, rfl⟩))) rfl

/-- The child ends before the loop begins; the handler reaps it, and `main` prints what
happened to be in `status`. -/
theorem status_stale : ¬ ∀ n statuses stale s, (waiting n statuses stale).Reachable s →
    s.main = .done → Collected n statuses s := by
  intro h
  have hrun : (waiting 1 (fun _ => .exited 7) .other).run ⟨.fork 0, [], none, .other, [], []⟩
      [.main, .terminate 0, .deliver, .main, .main, .main] =
      some ⟨.done, [.reaped], none, .other, [.other], [0]⟩ := rfl
  have hcollected := h 1 _ _ _ (Machine.Reachable.run (.start rfl) _ hrun) rfl
  exact absurd hcollected.printed (by decide)

end AdvancedCProjects.Terminal
