import AdvancedCProjects.Base.Writes
import AdvancedCProjects.Bibak.Handlers
import AdvancedCProjects.Bibak.Pool

/-!
# The indices the server writes (BibakBOXServer.c:65-92, 285-342, 404-456)

The message loop with the indices that `thread_function`, `handle_create` and
`create_folder_structure` write: those of the message, of a received name, of
`dir_path` and of `current_path`. Behind a write outside its buffer nothing is known.
-/

namespace AdvancedCProjects.Bibak
open Base

namespace Indices

inductive Buffer where
  | message
  | fileName (size : ℕ)
  | dirPath
  | currentPath
  deriving DecidableEq

instance : Sized Buffer where
  size
    | .message => bufferSize
    | .fileName size => size
    | .dirPath | .currentPath => 256

/-- The block for a name of `n` bytes. The sum is an `int`, the argument of `malloc` a `size_t`. -/
def nameBlock (n : ℤ) : ℕ := (wrapInt 4 (n + 1) % 2 ^ 64).toNat

/-- The loop of `create_folder_structure` with `len` bytes in `current_path`; it
exits at the first of the tokens behind `made` directories. -/
def folderWrites : ℕ → List Bytes → ℕ → List (Write Buffer)
  | _, [], _ => []
  | 0, t :: _, len => span .currentPath len (t.length + 1)
  | made + 1, t :: ts, len => span .currentPath len (t.length + 1) ++
      (span .currentPath (len + t.length) 2 ++ folderWrites made ts (len + t.length + 1))

def dirPath (result : Path) : Path := result.take (result.length - (lastComponent result).length)

/-- The path that `handle_create` gives to `create_folder_structure`. -/
def folderOf (result : Path) : Path := if dot ∈ lastComponent result then dirPath result else result

/-- The indices of `handle_create` behind its last `recv`. -/
def createWrites (result : Path) (made : ℕ) : List (Write Buffer) :=
  -- without a slash the program ends at the null pointer of `strrchr`
  if slash ∉ result then []
  else (if dot ∈ lastComponent result then span .dirPath 0 ((dirPath result).length + 1) else []) ++
    folderWrites made (tokens (folderOf result)) 1

def createFile (basePath : Path) (s : Service) (fileName : Path) (made : ℕ) (fs : Bool) : Service :=
  let result := basePath ++ fileName
  if slash ∉ result then { s with pc := .fault }
  else if made < (tokens (folderOf result)).length then { s with pc := .exited }
  else if dot ∈ lastComponent result ∧ fs = false then { s with pc := .exited }
  else s.done (.create fileName)

def lengthPc (messageLength : ℤ) : ServicePc :=
  if messageLength = -1 then .exited
  else if messageLength = 0 then .top
  else if messageLength < 0 then .fault
  else .message [] messageLength.toNat

/-- A negative length passes over the loop to the end of the string. -/
def lengthWrites (messageLength : ℤ) : List (Write Buffer) :=
  if messageLength < -1 then [⟨.message, messageLength⟩] else []

def messageWrites (s : Service) (buffer : Bytes) (left n : ℕ) : List (Write Buffer) :=
  span .message buffer.length n ++ if n = left then [⟨.message, s.messageLength⟩] else []

/-- There is no block for a size below -1. -/
def namePc (fileNameSize : ℤ) : ServicePc :=
  if fileNameSize < -1 then .fault
  else if fileNameSize ≤ 0 then .createSize []
  else .createName [] fileNameSize.toNat

def nameWrites (fileName : Bytes) (left n : ℕ) : List (Write Buffer) :=
  span (.fileName (nameBlock (fileName.length + left : ℕ))) fileName.length n

/-- What a `recv` gives: bytes, the end of the stream, or an error. `made` says
how many directories `create_folder_structure` finds or makes. -/
inductive Event where
  | recv (a : Recv) (made : ℕ)
  | eof (a : Recv) (made : ℕ)
  | failed

section Step
variable (basePath : Path) (s : Service)

def received (a : Recv) (made : ℕ) : Option (Service × List (Write Buffer)) :=
  match s.pc with
  | .top => (recvInt 4 a.n s.messageLength s.pending).map fun r =>
      ({ s with pending := r.2, messageLength := r.1, pc := lengthPc r.1 }, lengthWrites r.1)
  | .message buffer left => (s.next basePath a).map fun t => (t, messageWrites s buffer left a.n)
  | .createNameSize => (recvInt 4 a.n a.old s.pending).map fun r =>
      ({ s with pending := r.2, pc := namePc r.1 }, [])
  | .createName fileName left => (s.next basePath a).map fun t => (t, nameWrites fileName left a.n)
  | .createSize fileName => (recvInt 4 a.n a.old s.pending).map fun r =>
      (createFile basePath { s with pending := r.2 } (cstr (fileName ++ a.heap)) made a.fs,
        createWrites (basePath ++ cstr (fileName ++ a.heap)) made)
  | _ => (s.next basePath a).map fun t => (t, [])

def ended (a : Recv) (made : ℕ) : Option (Service × List (Write Buffer)) :=
  match s.pc with
  | .top => some ({ s with pc := lengthPc s.messageLength }, lengthWrites s.messageLength)
  | .createNameSize => some ({ s with pc := namePc (wrapInt 4 a.old) }, [])
  | .createSize fileName =>
    some (createFile basePath s (cstr (fileName ++ a.heap)) made a.fs,
      createWrites (basePath ++ cstr (fileName ++ a.heap)) made)
  | .exited | .fault => none
  | _ => some (s.eof basePath a, [])

/-- At the top the `recv` does not wait, and the loop begins anew. -/
def failed : Option Service :=
  match s.pc with
  | .top => some s
  | .exited | .fault => none
  | _ => some { s with pc := .exited }

/-- The end of a turn clears as many bytes as a pointer has. -/
def cleared (r : Service × List (Write Buffer)) : Service × List (Write Buffer) :=
  (r.1, r.2 ++ if r.1.pc = .top then span .message 0 8 else [])

def step : Event → Option (Service × List (Write Buffer))
  | .recv a made => (received basePath s a made).map cleared
  | .eof a made => if s.pending = [] then (ended basePath s a made).map cleared else none
  | .failed => (failed s).map fun t => (t, [])

end Step

def next (basePath : Path) (s : Service × List (Write Buffer)) (e : Event) :
    Option (Service × List (Write Buffer)) :=
  (step basePath s.1 e).map fun r =>
    (if AllInside r.2 then r.1 else { r.1 with pc := .fault }, s.2 ++ r.2)

/-- A thread on any byte stream, with the indices written so far. -/
def thread (basePath : Path) : Machine (Service × List (Write Buffer)) Event where
  start s := s.1.pc = .top ∧ s.1.ops = [] ∧ s.2 = []
  next := next basePath

/-- `/` and the components in front of the first one that cannot be made, each
followed by `/`, and that one itself. -/
def pathMade (path : Path) (made : ℕ) : Path :=
  currentPath ((tokens path).take made) ++ (tokens path)[made]?.getD []

def CreateFits (result : Path) (made : ℕ) : Prop :=
  slash ∉ result ∨ (dot ∈ lastComponent result → (dirPath result).length < 256) ∧
    (pathMade (folderOf result) made).length < 256

/-- No length below -1; of a message that does not fit come neither all bytes nor
more than fit; the folders of a created path fit as far as they can be made. -/
def Fits (basePath : Path) (s : Service × List (Write Buffer)) (e : Event) : Prop :=
  match s.1.pc, e with
  | .top, .recv a _ => ∀ r, recvInt 4 a.n s.1.messageLength s.1.pending = some r → -1 ≤ r.1
  | .top, .eof _ _ => -1 ≤ s.1.messageLength
  | .message buffer left, .recv a _ => s.1.messageLength < bufferSize ∨
      (buffer.length + a.n ≤ bufferSize ∧ a.n < left)
  | .createSize fileName, .recv a made | .createSize fileName, .eof a made =>
    CreateFits (basePath ++ cstr (fileName ++ a.heap)) made
  | _, _ => True

/-! ### What a step writes -/

section Inside
variable {basePath : Path} {s t : Service} {a : Recv} {made : ℕ} {ws : List (Write Buffer)}
  {Ok : ℤ → Prop}

theorem folderWrites_inside (ts : List Bytes) (made len : ℕ) (hlen : len < 256) :
    AllInside (folderWrites made ts len) ↔
      len + ((ts.take made).flatMap (· ++ [slash])).length + (ts[made]?.getD []).length < 256 := by
  induction ts generalizing made len with
  | nil =>
    simpa [folderWrites, allInside_nil] using hlen
  | cons t ts ih =>
    have htoken : AllInside (span Buffer.currentPath len (t.length + 1)) ↔ len + t.length < 256 :=
      span_string Buffer.currentPath len t.length
    cases made with
    | zero => simpa [folderWrites] using htoken
    | succ made =>
      have hslash : AllInside (span Buffer.currentPath (len + t.length) 2) ↔
          len + t.length + 1 < 256 :=
        span_string Buffer.currentPath (len + t.length) 1
      simp only [folderWrites, allInside_append, htoken, hslash, List.take_succ_cons,
        List.flatMap_cons, List.length_append, List.length_singleton, List.getElem?_cons_succ]
      constructor
      · intro h
        have hrest := (ih made _ h.2.1).mp h.2.2
        omega
      · intro h
        have hroom : len + t.length + 1 < 256 := by omega
        have hrest := (ih made _ hroom).mpr (by omega)
        exact ⟨by omega, hroom, hrest⟩

theorem createWrites_inside (result : Path) (made : ℕ) :
    AllInside (createWrites result made) ↔ CreateFits result made := by
  have hfolder := folderWrites_inside (tokens (folderOf result)) made 1 (by decide)
  have hlength : (pathMade (folderOf result) made).length =
      1 + (((tokens (folderOf result)).take made).flatMap (· ++ [slash])).length +
        ((tokens (folderOf result))[made]?.getD []).length := by
    rw [pathMade, currentPath, List.length_append, List.length_cons, Nat.add_comm 1]
  have hdir : AllInside (span Buffer.dirPath 0 ((dirPath result).length + 1)) ↔
      (dirPath result).length < 256 := by
    rw [span_string, Nat.zero_add]
    rfl
  by_cases hslash : slash ∈ result
  · simp only [createWrites, hslash, not_true_eq_false, if_false, allInside_append, hfolder,
      CreateFits, false_or, hlength]
    apply and_congr_left'
    by_cases hdot : dot ∈ lastComponent result
    · simp only [hdot, if_true, hdir, true_implies]
    · simp only [hdot, if_false, allInside_nil, false_implies]
  · simp only [createWrites, hslash, not_false_eq_true, if_true, allInside_nil, CreateFits, true_or]

theorem lengthWrites_inside (messageLength : ℤ) :
    AllInside (lengthWrites messageLength) ↔ -1 ≤ messageLength := by
  simp only [lengthWrites]
  split
  · next hneg =>
    rw [allInside_singleton, Write.Inside]
    dsimp only
    omega
  · next hneg =>
    exact ⟨fun _ => by omega, fun _ => allInside_nil⟩

theorem cleared_inside (r : Service × List (Write Buffer)) :
    AllInside (cleared r).2 ↔ AllInside r.2 := by
  have hspan : AllInside (if r.1.pc = .top then span Buffer.message 0 8 else []) := by
    split
    · exact (span_inside Buffer.message 0 8).mpr (.inr (by decide))
    · exact allInside_nil
  simp only [cleared, allInside_append, hspan, and_true]

theorem le_nameBlock {n : ℕ} (hn : n < 2 ^ 31) : n ≤ nameBlock n := by
  have hrange := wrapInt_range ((n : ℤ) + 1)
  by_cases hfits : n + 1 < 2 ^ 31
  · have hwrap := wrapInt_length hfits
    push_cast at hwrap
    simp only [nameBlock, hwrap]
    omega
  · obtain rfl : n = 2 ^ 31 - 1 := by omega
    decide

/-- What the thread knows about the field it is reading; `Ok` is what holds of the
length of a message. -/
def Counted (Ok : ℤ → Prop) (s : Service) : Prop :=
  match s.pc with
  | .message buffer left =>
    0 < left ∧ ((buffer.length + left : ℕ) : ℤ) = s.messageLength ∧ Ok s.messageLength
  | .createName fileName left => fileName.length + left < 2 ^ 31
  | _ => True

theorem nameWrites_inside {fileName : Bytes} {left n : ℕ} (hn : n ≤ left)
    (hc : fileName.length + left < 2 ^ 31) : AllInside (nameWrites fileName left n) := by
  have hblock := le_nameBlock hc
  rw [nameWrites, span_inside]
  right
  simp only [Sized.size]
  omega

theorem messageWrites_inside {buffer : Bytes} {left n : ℕ} (hn : 0 < n ∧ n ≤ left)
    (hc : ((buffer.length + left : ℕ) : ℤ) = s.messageLength) :
    AllInside (messageWrites s buffer left n) ↔ s.messageLength < bufferSize ∨
      (buffer.length + n ≤ bufferSize ∧ n < left) := by
  have hspan : AllInside (span Buffer.message buffer.length n) ↔
      buffer.length + n ≤ bufferSize := by
    rw [span_inside]
    simp only [Sized.size]
    omega
  simp only [messageWrites, allInside_append, hspan]
  by_cases hall : n = left
  · rw [if_pos hall, allInside_singleton, Write.Inside]
    simp only [Sized.size]
    omega
  · simp only [if_neg hall, allInside_nil, and_true]
    omega

theorem received_inside {r : Service × List (Write Buffer)} (hc : Counted Ok s)
    (h : received basePath s a made = some r) :
    AllInside r.2 ↔ Fits basePath (s, ws) (.recv a made) := by
  unfold received at h
  unfold Counted at hc
  unfold Fits
  cases hpc : s.pc with
  | top =>
    simp only [hpc] at h ⊢
    obtain ⟨q, hq, rfl⟩ := Option.map_eq_some_iff.mp h
    rw [lengthWrites_inside, hq]
    simp
  | message buffer left =>
    simp only [hpc] at h hc ⊢
    obtain ⟨t, ht, rfl⟩ := Option.map_eq_some_iff.mp h
    simp only [Service.next, hpc] at ht
    obtain ⟨q, hq, -⟩ := Option.map_eq_some_iff.mp ht
    obtain ⟨hpos, hle, -⟩ := recv_bounds hq
    exact messageWrites_inside ⟨hpos, hle⟩ hc.2.1
  | createName fileName left =>
    simp only [hpc] at h hc ⊢
    obtain ⟨t, ht, rfl⟩ := Option.map_eq_some_iff.mp h
    simp only [Service.next, hpc] at ht
    obtain ⟨q, hq, -⟩ := Option.map_eq_some_iff.mp ht
    obtain ⟨-, hle, -⟩ := recv_bounds hq
    exact iff_of_true (nameWrites_inside hle hc) trivial
  | createSize fileName =>
    simp only [hpc] at h ⊢
    obtain ⟨q, -, rfl⟩ := Option.map_eq_some_iff.mp h
    exact createWrites_inside _ made
  | createNameSize | updateSize | updateNameSize _ | updateName _ _ _ | updateData _ _ _
  | deleteNameSize | deleteName _ _ | exited | fault =>
    simp only [hpc] at h ⊢
    obtain ⟨q, -, rfl⟩ := Option.map_eq_some_iff.mp h
    exact iff_of_true allInside_nil trivial

theorem ended_inside {r : Service × List (Write Buffer)} (h : ended basePath s a made = some r) :
    AllInside r.2 ↔ Fits basePath (s, ws) (.eof a made) := by
  unfold ended at h
  unfold Fits
  cases hpc : s.pc with
  | top =>
    simp only [hpc] at h ⊢
    obtain rfl := Option.some.inj h
    exact lengthWrites_inside _
  | createSize fileName =>
    simp only [hpc] at h ⊢
    obtain rfl := Option.some.inj h
    exact createWrites_inside _ made
  | exited | fault =>
    simp only [hpc] at h
    contradiction
  | message _ _ | createName _ _ | createNameSize | updateSize | updateNameSize _
  | updateName _ _ _ | updateData _ _ _ | deleteNameSize | deleteName _ _ =>
    simp only [hpc] at h ⊢
    obtain rfl := Option.some.inj h
    exact iff_of_true allInside_nil trivial

/-- A step writes inside the buffers exactly if what it has read fits. -/
theorem step_inside {e : Event} {r : Service × List (Write Buffer)} (hc : Counted Ok s)
    (h : step basePath s e = some r) : AllInside r.2 ↔ Fits basePath (s, ws) e := by
  cases e with
  | recv a made =>
    obtain ⟨q, hq, rfl⟩ := Option.map_eq_some_iff.mp h
    rw [cleared_inside]
    exact received_inside hc hq
  | eof a made =>
    simp only [step] at h
    split at h
    · obtain ⟨q, hq, rfl⟩ := Option.map_eq_some_iff.mp h
      rw [cleared_inside]
      exact ended_inside hq
    · contradiction
  | failed =>
    obtain ⟨t, -, rfl⟩ := Option.map_eq_some_iff.mp h
    have hfits : Fits basePath (s, ws) .failed := by
      unfold Fits
      split <;> trivial
    exact iff_of_true allInside_nil hfits

/-! ### The change loop again -/

theorem folderPath_length_eq (path : Path) (made : ℕ) (h : (tokens path).length ≤ made) :
    pathMade path made = folderPath path := by
  have hnone : (tokens path)[made]? = none := List.getElem?_eq_none h
  rw [pathMade, hnone, List.take_of_length_le h, Option.getD_none, List.append_nil]
  rfl

/-- A path that does not overflow fits, however many directories are made. -/
theorem createFits_of_fits {result : Path} (h : ¬ createOverflows result)
    (hmade : (tokens (folderOf result)).length ≤ made) : CreateFits result made := by
  simp only [createOverflows, not_or, not_not] at h
  obtain ⟨-, hfit⟩ := h
  right
  rw [folderPath_length_eq _ _ hmade, folderOf]
  by_cases hdot : dot ∈ lastComponent result
  · simp only [hdot, if_true, not_or, not_le, true_implies] at hfit ⊢
    exact hfit
  · simp only [hdot, if_false, not_le, false_implies, true_and] at hfit ⊢
    exact hfit

/-- Where the change loop goes on, this thread takes the same step, and what it reads fits. -/
theorem received_of_next (hfs : a.fs = true) (hc : Counted (· < bufferSize) s)
    (h : s.next basePath a = some t) (hgo : t.pc ≠ .fault) :
    ∃ made ws, received basePath s a made = some (t, ws) ∧
      ∀ vs, Fits basePath (s, vs) (.recv a made) := by
  cases hpc : s.pc with
  | top =>
    simp only [Service.next, hpc] at h
    obtain ⟨r, hr, rfl⟩ := Option.map_eq_some_iff.mp h
    have hlength : Service.lengthPc r.1 = lengthPc r.1 ∧ -1 ≤ r.1 := by
      unfold Service.lengthPc at hgo ⊢
      unfold lengthPc
      split_ifs at hgo ⊢
      all_goals first | exact absurd rfl hgo | exact ⟨rfl, by omega⟩ | omega
    refine ⟨0, lengthWrites r.1, ?_, fun vs => ?_⟩
    · simp only [received, hpc, hr, Option.map_some, hlength.1]
    · unfold Fits
      simp only [hpc, hr, Option.some.injEq, forall_eq']
      exact hlength.2
  | createNameSize =>
    simp only [Service.next, hpc] at h
    obtain ⟨r, hr, rfl⟩ := Option.map_eq_some_iff.mp h
    refine ⟨0, [], ?_, fun vs => by unfold Fits; simp only [hpc]⟩
    simp only [received, hpc, hr, Option.map_some, namePc]
    split_ifs at hgo ⊢ <;> first | rfl | omega | exact absurd rfl hgo
  | createSize fileName =>
    simp only [Service.next, hpc] at h
    obtain ⟨r, hr, rfl⟩ := Option.map_eq_some_iff.mp h
    obtain ⟨result, hresult⟩ : ∃ result, basePath ++ cstr (fileName ++ a.heap) = result := ⟨_, rfl⟩
    have hover : ¬ createOverflows result := by
      intro hover
      simp only [Service.makeFile, hresult, hover, if_true, ne_eq, not_true_eq_false] at hgo
    have hslash : slash ∈ result := by
      by_contra hno
      exact hover (.inl hno)
    refine ⟨(tokens (folderOf result)).length,
      createWrites result (tokens (folderOf result)).length, ?_, fun vs => ?_⟩
    · simp only [received, hpc, hr, Option.map_some, hresult, Service.makeFile, hover, if_false,
        hfs, if_true, createFile, hslash, not_true_eq_false, lt_irrefl, Bool.true_eq_false,
        and_false]
    · unfold Fits
      simp only [hpc, hresult]
      exact createFits_of_fits hover le_rfl
  | message buffer left =>
    refine ⟨0, _, by rw [received, hpc]; simp only [h]; rfl, fun vs => ?_⟩
    unfold Fits
    simp only [Counted, hpc] at hc ⊢
    exact .inl hc.2.2
  | createName fileName left =>
    exact ⟨0, _, by rw [received, hpc]; simp only [h]; rfl,
      fun vs => by unfold Fits; simp only [hpc]⟩
  | updateSize | updateNameSize _ | updateName _ _ _ | updateData _ _ _ | deleteNameSize
  | deleteName _ _ | exited | fault =>
    exact ⟨0, [], by rw [received, hpc]; simp only [h]; rfl,
      fun vs => by unfold Fits; simp only [hpc]⟩

/-! ### What the thread knows about its fields -/

theorem counted_done (op : Op) : Counted Ok (s.done op) := trivial

theorem counted_openUpdate (fileSize : ℤ) (fileName : Bytes) (fs : Bool) :
    Counted Ok (s.openUpdate fileSize fileName fs) := by
  unfold Service.openUpdate
  split
  · split
    · trivial
    · exact counted_done _
  · trivial

theorem counted_dispatch (buffer : Bytes) :
    Counted Ok { s with pc := Service.dispatch buffer } := by
  unfold Counted Service.dispatch
  dsimp only
  split_ifs <;> trivial

theorem counted_createFile (fileName : Path) (fs : Bool) :
    Counted Ok (createFile basePath s fileName made fs) := by
  unfold createFile
  dsimp only
  split_ifs
  · trivial
  · trivial
  · exact counted_done _
  · trivial

theorem counted_length (pending : Bytes) {messageLength : ℤ} (hok : Ok messageLength) :
    Counted Ok { s with pending := pending, messageLength := messageLength,
                        pc := lengthPc messageLength } := by
  unfold Counted lengthPc
  dsimp only
  split_ifs
  · trivial
  · trivial
  · trivial
  · dsimp only
    rw [List.length_nil]
    exact ⟨by omega, by omega, hok⟩

theorem counted_name (pending : Bytes) {fileNameSize : ℤ} (h : fileNameSize < 2 ^ 31) :
    Counted Ok { s with pending := pending, pc := namePc fileNameSize } := by
  unfold Counted namePc
  dsimp only
  split_ifs
  · trivial
  · trivial
  · dsimp only
    rw [List.length_nil]
    omega

theorem counted_next (hc : Counted Ok s) (hother : s.pc ≠ .top ∧ s.pc ≠ .createNameSize)
    (h : s.next basePath a = some t) : Counted Ok t := by
  unfold Counted at hc
  cases hpc : s.pc with
  | top => exact absurd hpc hother.1
  | createNameSize => exact absurd hpc hother.2
  | message buffer left =>
    simp only [hpc] at hc
    simp only [Service.next, hpc] at h
    obtain ⟨q, hq, rfl⟩ := Option.map_eq_some_iff.mp h
    obtain ⟨-, -, hlen⟩ := recv_bounds hq
    split
    · unfold Counted
      dsimp only
      rw [List.length_append]
      exact ⟨by omega, by omega, hc.2.2⟩
    · exact counted_dispatch _
  | createName fileName left =>
    simp only [hpc] at hc
    simp only [Service.next, hpc] at h
    obtain ⟨q, hq, rfl⟩ := Option.map_eq_some_iff.mp h
    obtain ⟨-, -, hlen⟩ := recv_bounds hq
    split
    · unfold Counted
      dsimp only
      rw [List.length_append]
      omega
    · trivial
  | updateSize =>
    simp only [Service.next, hpc] at h
    obtain ⟨q, -, rfl⟩ := Option.map_eq_some_iff.mp h
    trivial
  | updateNameSize fileSize =>
    simp only [Service.next, hpc] at h
    obtain ⟨q, -, rfl⟩ := Option.map_eq_some_iff.mp h
    split_ifs
    · trivial
    · exact counted_openUpdate _ _ _
    · trivial
  | updateName fileSize fileName left =>
    simp only [Service.next, hpc] at h
    obtain ⟨q, -, rfl⟩ := Option.map_eq_some_iff.mp h
    split_ifs
    · trivial
    · exact counted_openUpdate _ _ _
  | updateData fileName fileSize written =>
    simp only [Service.next, hpc] at h
    obtain ⟨q, -, rfl⟩ := Option.map_eq_some_iff.mp h
    split_ifs
    · trivial
    · exact counted_done _
  | createSize fileName =>
    simp only [Service.next, hpc] at h
    obtain ⟨q, -, rfl⟩ := Option.map_eq_some_iff.mp h
    unfold Service.makeFile
    split_ifs
    · trivial
    · exact counted_done _
    · trivial
  | deleteNameSize =>
    simp only [Service.next, hpc] at h
    obtain ⟨q, -, rfl⟩ := Option.map_eq_some_iff.mp h
    split_ifs
    · trivial
    · exact counted_done _
    · trivial
  | deleteName fileName left =>
    simp only [Service.next, hpc] at h
    obtain ⟨q, -, rfl⟩ := Option.map_eq_some_iff.mp h
    split_ifs
    · trivial
    · exact counted_done _
  | exited | fault =>
    simp only [Service.next, hpc] at h
    contradiction

theorem counted_eof (hother : s.pc ≠ .top ∧ s.pc ≠ .createNameSize ∧ ∀ f, s.pc ≠ .createSize f) :
    Counted Ok (s.eof basePath a) := by
  unfold Service.eof
  cases hpc : s.pc with
  | top => exact absurd hpc hother.1
  | createNameSize => exact absurd hpc hother.2.1
  | createSize fileName => exact absurd hpc (hother.2.2 fileName)
  | updateNameSize fileSize =>
    dsimp only
    split_ifs
    · trivial
    · exact counted_openUpdate _ _ _
    · trivial
  | deleteNameSize =>
    dsimp only
    split_ifs
    · trivial
    · exact counted_done _
    · trivial
  | updateData _ _ _ | exited | fault =>
    dsimp only
    unfold Counted
    rw [hpc]
    trivial
  | updateSize | message _ _ | updateName _ _ _ | createName _ _ | deleteName _ _ => trivial

theorem counted_service (hc : Counted (· < bufferSize) s) (h : s.next basePath a = some t) :
    Counted (· < bufferSize) t := by
  cases hpc : s.pc with
  | top =>
    simp only [Service.next, hpc] at h
    obtain ⟨q, -, rfl⟩ := Option.map_eq_some_iff.mp h
    unfold Counted Service.lengthPc
    dsimp only
    split_ifs
    · trivial
    · trivial
    · trivial
    · dsimp only
      rw [List.length_nil]
      omega
  | createNameSize =>
    simp only [Service.next, hpc] at h
    obtain ⟨q, hq, rfl⟩ := Option.map_eq_some_iff.mp h
    have hlt := recvInt_lt hq
    split_ifs
    · trivial
    · trivial
    · unfold Counted
      dsimp only
      rw [List.length_nil]
      omega
  | message _ _ | createName _ _ | createSize _ | updateSize | updateNameSize _
  | updateName _ _ _ | updateData _ _ _ | deleteNameSize | deleteName _ _ | exited | fault =>
    exact counted_next hc (by simp [hpc]) h

theorem step_counted {e : Event} {r : Service × List (Write Buffer)} (hok : ∀ m, Ok m)
    (hc : Counted Ok s) (h : step basePath s e = some r) : Counted Ok r.1 := by
  cases e with
  | recv a made =>
    obtain ⟨q, hq, rfl⟩ := Option.map_eq_some_iff.mp h
    unfold received at hq
    cases hpc : s.pc with
    | top =>
      simp only [hpc] at hq
      obtain ⟨i, hi, rfl⟩ := Option.map_eq_some_iff.mp hq
      exact counted_length _ (hok _)
    | createNameSize =>
      simp only [hpc] at hq
      obtain ⟨i, hi, rfl⟩ := Option.map_eq_some_iff.mp hq
      exact counted_name _ (recvInt_lt hi)
    | createSize fileName =>
      simp only [hpc] at hq
      obtain ⟨i, hi, rfl⟩ := Option.map_eq_some_iff.mp hq
      exact counted_createFile _ _
    | message _ _ | createName _ _ | updateSize | updateNameSize _ | updateName _ _ _
    | updateData _ _ _ | deleteNameSize | deleteName _ _ | exited | fault =>
      simp only [hpc] at hq
      obtain ⟨t, ht, rfl⟩ := Option.map_eq_some_iff.mp hq
      exact counted_next hc (by simp [hpc]) ht
  | eof a made =>
    simp only [step] at h
    split at h
    · obtain ⟨q, hq, rfl⟩ := Option.map_eq_some_iff.mp h
      unfold ended at hq
      cases hpc : s.pc with
      | top =>
        simp only [hpc] at hq
        obtain rfl := Option.some.inj hq
        exact counted_length s.pending (hok s.messageLength)
      | createNameSize =>
        simp only [hpc] at hq
        obtain rfl := Option.some.inj hq
        exact counted_name s.pending (wrapInt_range _).2
      | createSize fileName =>
        simp only [hpc] at hq
        obtain rfl := Option.some.inj hq
        exact counted_createFile _ _
      | exited | fault =>
        simp only [hpc] at hq
        contradiction
      | message _ _ | createName _ _ | updateSize | updateNameSize _ | updateName _ _ _
      | updateData _ _ _ | deleteNameSize | deleteName _ _ =>
        simp only [hpc] at hq
        obtain rfl := Option.some.inj hq
        exact counted_eof (by simp [hpc])
    · contradiction
  | failed =>
    obtain ⟨t, ht, rfl⟩ := Option.map_eq_some_iff.mp h
    unfold failed at ht
    split at ht
    · obtain rfl := Option.some.inj ht
      exact hc
    · contradiction
    · contradiction
    · obtain rfl := Option.some.inj ht
      trivial

end Inside

theorem counted_inductive (basePath : Path) :
    (thread basePath).Inductive (fun _ _ => True) fun s => Counted (fun _ => True) s.1 where
  base s hs := by
    unfold Counted
    rw [hs.1]
    trivial
  keep s e t hc _ hn := by
    obtain ⟨r, hr, rfl⟩ := Option.map_eq_some_iff.mp hn
    dsimp only
    split
    · exact step_counted (fun _ => trivial) hc hr
    · trivial

/-- The indices a thread has written lie inside their buffers exactly if every
step so far has met the condition. -/
theorem indices_inside_iff (basePath : Path) (s : Service × List (Write Buffer))
    (h : (thread basePath).Reachable s) :
    AllInside s.2 ↔ (thread basePath).Reaches (Fits basePath) s := by
  have hcounted (t : Service × List (Write Buffer)) (ht : (thread basePath).Reachable t) :
      Counted (fun _ => True) t.1 := (counted_inductive basePath).holds ht
  constructor
  · intro hin
    induction h with
    | start hs => exact .start hs
    | @step s t e hbefore _ hn ih =>
      have hc := hcounted s hbefore
      obtain ⟨r, hr, rfl⟩ := Option.map_eq_some_iff.mp hn
      obtain ⟨hold, hnew⟩ := (allInside_append _ _).mp hin
      exact .step (ih hold) ((step_inside hc hr).mp hnew) hn
  · intro hreach
    induction hreach with
    | start hs => rw [hs.2.2]; exact allInside_nil
    | @step s t e hbefore hfits hn ih =>
      have hany := hbefore.reachable
      have hc := hcounted s hany
      obtain ⟨r, hr, rfl⟩ := Option.map_eq_some_iff.mp hn
      exact (allInside_append _ _).mpr ⟨ih hany, (step_inside hc hr).mpr hfits⟩

/-- While the change loop does not fail on what it receives, it writes inside the buffers. -/
theorem service_inside (basePath : Path) (messages : List Message) (s : Service)
    (h : (service basePath messages).Reaches (fun _ a => a.fs = true) s) (hgo : s.pc ≠ .fault) :
    ∃ ws, (thread basePath).Reaches (Fits basePath) (s, ws) ∧ AllInside ws := by
  have hcounted (t : Service) (ht : (service basePath messages).Reachable t) :
      Counted (· < bufferSize) t := by
    induction ht with
    | start hs =>
      unfold Counted
      rw [hs.2.1]
      trivial
    | step _ _ hn ih => exact counted_service ih hn
  induction h with
  | @start s hs => exact ⟨[], .start ⟨hs.2.1, hs.2.2, rfl⟩, allInside_nil⟩
  | @step s t a hbefore hfs hn ih =>
    have hrunning : s.pc ≠ .fault := by
      intro hfault
      simp only [service, Service.next, hfault] at hn
      contradiction
    obtain ⟨ws, hreach, hin⟩ := ih hrunning
    have hc := hcounted s hbefore.reachable
    obtain ⟨made, vs, hrecv, hfits⟩ := received_of_next hfs hc hn hgo
    have hstep : step basePath s (.recv a made) = some (cleared (t, vs)) := by
      rw [step, hrecv, Option.map_some]
    have hinside := (step_inside hc hstep).mpr (hfits ws)
    have hnext : (thread basePath).next (s, ws) (.recv a made) =
        some (t, ws ++ (cleared (t, vs)).2) := by
      simp only [thread, next, hstep, Option.map_some, if_pos hinside]
      rfl
    exact ⟨_, .step hreach (hfits ws) hnext, (allInside_append _ _).mpr ⟨hin, hinside⟩⟩

def oneCreate : List Event :=
  [.recv ⟨4, 0, [], true⟩ 0, .recv ⟨11, 0, [], true⟩ 0, .recv ⟨4, 0, [], true⟩ 0,
    .recv ⟨4, 0, [], true⟩ 0, .recv ⟨4, 0, [0], true⟩ 1]

def beforeCreate : Service × List (Write Buffer) :=
  (⟨(Message.create (utf8 "/a.b") 0).bytes, 0, .top, []⟩, [])

def afterCreate : Service × List (Write Buffer) :=
  ((thread (utf8 "/s")).run beforeCreate oneCreate).getD beforeCreate

theorem oneCreate_inside : (thread (utf8 "/s")).Reaches (Fits (utf8 "/s")) afterCreate ∧
    afterCreate.1.ops = [.create (utf8 "/a.b")] := by
  have hrun : (thread (utf8 "/s")).run beforeCreate oneCreate = some afterCreate := by
    decide +kernel
  have hr : (thread (utf8 "/s")).Reachable afterCreate :=
    Machine.Reachable.run (.start ⟨rfl, rfl, rfl⟩) oneCreate hrun
  exact ⟨(indices_inside_iff _ afterCreate hr).mp (by decide +kernel), by decide +kernel⟩

def IndicesInside (basePath : Path) : Prop :=
  ∀ s, (thread basePath).Reachable s → AllInside s.2

/-- The length -2 passes over the loop that would receive the message. -/
theorem negativeLength_outside : ¬ IndicesInside (utf8 "/s") := by
  intro h
  have hrun : (thread (utf8 "/s")).run (⟨encodeInt 4 (-2), 0, .top, []⟩, [])
      [.recv ⟨4, 0, [], true⟩ 0] = some (⟨[], -2, .fault, []⟩, [⟨.message, -2⟩]) := by
    decide +kernel
  have hinside := h _ (Machine.Reachable.run (.start ⟨rfl, rfl, rfl⟩) _ hrun)
  exact absurd hinside (by decide)

end Indices
end AdvancedCProjects.Bibak
