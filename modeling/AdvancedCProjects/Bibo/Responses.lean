import AdvancedCProjects.Bibo.Session

/-!
# Reading the responses (biboClient.c:60-82)

`handle_response` reads the length and the text with one `read` each. A `read` of
a FIFO returns what is buffered when it is called, so a text that comes in pieces
is cut off, and the rest of it is taken for the next length.
-/

namespace AdvancedCProjects.Bibo.Responses
open Base

/-- A response is a C string. -/
structure Response where
  text : Bytes
  noZero : (0 : Byte) ∉ text

/-- How many bytes are buffered when the length is read and when the text is; a
`read` waits until there are some. -/
structure Arrival where
  header : ℕ
  body : ℕ
  header_pos : 0 < header
  body_pos : 0 < body

/-- What `len` and the block of `malloc` hold before they are written. -/
structure Memory where
  len : ℤ
  block : Bytes

/-- `read`; it does not return when nothing comes. -/
def readBuffered (limit buffered : ℕ) (pending : Bytes) : Option (Bytes × Bytes) :=
  recv limit (min limit (min buffered pending.length)) pending

/-- `handle_response`: the string it prints, with what it leaves in the FIFO. -/
def handleResponse (arrival : Arrival) (memory : Memory) (pending : Bytes) :
    Option (Bytes × Bytes) :=
  (readBuffered 4 arrival.header pending).bind fun (bytes, pending) =>
    let len := decodeInt (bytes ++ (encodeInt 4 memory.len).drop bytes.length)
    -- `read` refuses a negative count, and `malloc` one that comes of `len + 1`
    if len < 0 ∨ wrapInt 4 (len + 1) < 0 then none
    else if len = 0 then some ([], pending)
    else (readBuffered len.toNat arrival.body pending).map fun (got, rest) =>
      (cstr ((got ++ memory.block.drop got.length).take len.toNat), rest)

def frames (responses : List Response) : Bytes :=
  responses.flatMap fun response => frameBytes response.text

/-- Each call returns the text of its response and leaves the FIFO at the next frame. -/
def Aligned : List (Response × Arrival) → List Memory → Prop
  | (response, arrival) :: calls, memory :: memories =>
    handleResponse arrival memory (frames (response :: calls.map Prod.fst)) =
      some (response.text, frames (calls.map Prod.fst)) ∧ Aligned calls memories
  | _, _ => True

section Reads
variable {response : Response} {arrival : Arrival} {memory : Memory} {later : Bytes}
  {limit buffered : ℕ} {pending got rest printed : Bytes}

theorem readBuffered_length (h : readBuffered limit buffered pending = some (got, rest)) :
    got.length ≤ limit ∧ got.length ≤ buffered ∧ pending = got ++ rest := by
  simp only [readBuffered, recv] at h
  split at h
  · obtain ⟨rfl, rfl⟩ := Prod.mk.inj (Option.some.inj h)
    refine ⟨?_, ?_, (List.take_append_drop _ _).symm⟩
    · rw [List.length_take]
      omega
    · rw [List.length_take]
      omega
  · contradiction

theorem readBuffered_whole (later : Bytes) {field : Bytes} (hf : field ≠ [])
    (hb : field.length ≤ buffered) :
    readBuffered field.length buffered (field ++ later) = some (field, later) := by
  have hmin : min field.length (min buffered (field ++ later).length) = field.length := by
    rw [List.length_append]
    omega
  rw [readBuffered, hmin]
  exact recv_whole hf le_rfl later

theorem frameBytes_append {len : ℤ} (hwrap : wrapInt 4 response.text.length = len) :
    frameBytes response.text ++ later =
      encodeInt 4 len ++ (response.text.take len.toNat ++ later) := by
  subst hwrap
  simp only [frameBytes, List.append_assoc]

/-- A variable that already held the value holds it after a read of any part of it. -/
theorem readBuffered_over {x : ℤ}
    (h : readBuffered 4 buffered (encodeInt 4 x ++ later) = some (got, rest)) :
    got ++ (encodeInt 4 x).drop got.length = encodeInt 4 x := by
  obtain ⟨hlimit, -, hsplit⟩ := readBuffered_length h
  have hle : got.length ≤ (encodeInt 4 x).length := hlimit.trans (encodeInt_length 4 x).ge
  have hgot : (encodeInt 4 x).take got.length = got := by
    rw [← List.take_append_of_le_length hle, hsplit, List.take_left]
  calc got ++ (encodeInt 4 x).drop got.length
      = (encodeInt 4 x).take got.length ++ (encodeInt 4 x).drop got.length := by rw [hgot]
    _ = encodeInt 4 x := List.take_append_drop _ _

section Length
variable {len : ℤ} {bytes after : Bytes}
  (hread : readBuffered 4 arrival.header pending = some (bytes, after))
  (hlen : decodeInt (bytes ++ (encodeInt 4 memory.len).drop bytes.length) = len)
include hread hlen

theorem handleResponse_eq : handleResponse arrival memory pending =
    if len < 0 ∨ wrapInt 4 (len + 1) < 0 then none
    else if len = 0 then some ([], after)
    else (readBuffered len.toNat arrival.body after).map fun (got, rest) =>
      (cstr ((got ++ memory.block.drop got.length).take len.toNat), rest) := by
  subst hlen
  rw [handleResponse, hread, Option.bind_some]

theorem handleResponse_len (h : handleResponse arrival memory pending = some (printed, rest)) :
    0 ≤ len ∧ 0 ≤ wrapInt 4 (len + 1) ∧ printed.length ≤ len.toNat ∧
      after.length ≤ rest.length + min len.toNat arrival.body := by
  rw [handleResponse_eq hread hlen] at h
  by_cases hneg : len < 0 ∨ wrapInt 4 (len + 1) < 0
  · rw [if_pos hneg] at h
    contradiction
  rw [if_neg hneg] at h
  by_cases hzero : len = 0
  · rw [if_pos hzero] at h
    obtain ⟨rfl, rfl⟩ := Prod.mk.inj (Option.some.inj h)
    exact ⟨by omega, by omega, Nat.zero_le _, Nat.le_add_right _ _⟩
  rw [if_neg hzero] at h
  obtain ⟨⟨got, left⟩, hgot, hout⟩ := Option.map_eq_some_iff.mp h
  simp only [Prod.mk.injEq] at hout
  obtain ⟨rfl, rfl⟩ := hout
  obtain ⟨hlimit, hbody, hsplit⟩ := readBuffered_length hgot
  have hcstr : ∀ bytes : Bytes, (cstr bytes).length ≤ bytes.length := fun bytes =>
    (List.takeWhile_prefix _).length_le
  have hprinted := hcstr ((got ++ memory.block.drop got.length).take len.toNat)
  rw [List.length_take] at hprinted
  refine ⟨by omega, by omega, by omega, ?_⟩
  rw [hsplit, List.length_append]
  omega

end Length

theorem handleResponse_whole (hfits : response.text.length < 2 ^ 31 - 1)
    (hheader : 4 ≤ arrival.header) (hbody : response.text.length ≤ arrival.body) :
    handleResponse arrival memory (frameBytes response.text ++ later) =
      some (response.text, later) := by
  have hlen : wrapInt 4 response.text.length = response.text.length := wrapInt_length (by omega)
  have hframe : frameBytes response.text ++ later =
      encodeInt 4 response.text.length ++ (response.text ++ later) := by
    rw [frameBytes_append hlen, Int.toNat_natCast, List.take_length]
  have hcount : readBuffered 4 arrival.header (frameBytes response.text ++ later) =
      some (encodeInt 4 response.text.length, response.text ++ later) := by
    have hread := readBuffered_whole (response.text ++ later)
      (List.ne_nil_of_length_pos (by rw [encodeInt_length]; norm_num))
      (hheader.trans' (encodeInt_length 4 response.text.length).le)
    rwa [encodeInt_length, ← hframe] at hread
  have hdecode : decodeInt (encodeInt 4 response.text.length ++
      (encodeInt 4 memory.len).drop (encodeInt 4 response.text.length).length) =
      response.text.length := by
    rw [encodeInt_length, List.drop_eq_nil_of_le (by rw [encodeInt_length]), List.append_nil,
      decodeInt_encodeInt, hlen]
  have hsucc : wrapInt 4 (response.text.length + 1) = response.text.length + 1 := by
    exact_mod_cast wrapInt_length (n := response.text.length + 1) (by omega)
  rw [handleResponse_eq hcount hdecode, if_neg (by omega)]
  by_cases hzero : response.text = []
  · simp [hzero]
  rw [if_neg (by simpa using hzero), Int.toNat_natCast, readBuffered_whole later hzero hbody]
  simp only [Option.map_some, List.take_left, cstr_self response.noZero]

/-- If a call is right whatever `len` held, the whole of its frame was buffered. -/
theorem buffered_of_whole (response : Response) (arrival : Arrival) (later : Bytes) (h : ∀ memory,
    handleResponse arrival memory (frameBytes response.text ++ later) =
      some (response.text, later)) :
    response.text.length < 2 ^ 31 - 1 ∧ 4 ≤ arrival.header ∧
      response.text.length ≤ arrival.body := by
  obtain ⟨len, hwrap⟩ : ∃ len, wrapInt 4 response.text.length = len := ⟨_, rfl⟩
  have hcall := h ⟨len, []⟩
  have hdecode : decodeInt (encodeInt 4 len) = len := by
    rw [decodeInt_encodeInt, ← hwrap, wrapInt, wrapInt, Int.bmod_bmod]
  rw [frameBytes_append hwrap] at hcall
  cases hread : readBuffered 4 arrival.header
      (encodeInt 4 len ++ (response.text.take len.toNat ++ later)) with
  | none =>
    simp only [handleResponse, hread, Option.bind_none, reduceCtorEq] at hcall
  | some read =>
    obtain ⟨bytes, after⟩ := read
    have hover := readBuffered_over hread
    obtain ⟨hnonneg, hsucc, hprinted, hrest⟩ :=
      handleResponse_len hread (hover.symm ▸ hdecode) hcall
    obtain ⟨hlimit, hheader, hsplit⟩ := readBuffered_length hread
    have hsize := congrArg List.length hsplit
    simp only [List.length_append, List.length_take, encodeInt_length] at hsize
    have hlen := (wrapInt_natCast_le response.text.length).1
    have hsmall : len ≠ 2 ^ 31 - 1 := by
      intro hmax
      rw [hmax] at hsucc
      exact absurd hsucc (by decide)
    have hrange := (wrapInt_range (response.text.length : ℤ)).2
    rw [hwrap] at hlen hrange
    omega

end Reads

/-- The calls stay aligned, whatever the memory holds, exactly if every response is
shorter than 2³¹ - 1 bytes and both reads of a call find all they ask for. -/
theorem responses_aligned (calls : List (Response × Arrival)) :
    (∀ memories, memories.length = calls.length → Aligned calls memories) ↔
      ∀ response arrival, (response, arrival) ∈ calls →
        response.text.length < 2 ^ 31 - 1 ∧ 4 ≤ arrival.header ∧
          response.text.length ≤ arrival.body := by
  induction calls with
  | nil => exact ⟨fun _ _ _ h => absurd h List.not_mem_nil, fun _ _ _ => trivial⟩
  | cons call calls ih =>
    obtain ⟨response, arrival⟩ := call
    constructor
    · intro h
      have hfirst := buffered_of_whole response arrival (frames (calls.map Prod.fst)) fun memory =>
          (h (memory :: List.replicate calls.length memory) (by simp)).1
      have hlater := ih.mp fun memories hlen => (h (⟨0, []⟩ :: memories) (by simp [hlen])).2
      intro response' arrival' hmem
      rcases List.mem_cons.mp hmem with heq | hmem
      · obtain ⟨rfl, rfl⟩ := Prod.mk.inj heq
        exact hfirst
      · exact hlater _ _ hmem
    · intro h memories hlen
      cases memories with
      | nil => trivial
      | cons memory memories =>
        obtain ⟨hfits, hheader, hbody⟩ := h response arrival List.mem_cons_self
        have hrest : memories.length = calls.length := Nat.succ.inj hlen
        exact ⟨handleResponse_whole hfits hheader hbody,
          ih.mpr (fun r a hmem => h r a (List.mem_cons_of_mem _ hmem)) memories hrest⟩

/-- `readF` of a file of 70000 bytes: a pipe holds 65536 of them. -/
theorem longFile_cut : ¬ ∀ calls memories, memories.length = calls.length →
    Aligned calls memories := by
  intro h
  let response : Response :=
    ⟨List.replicate 70000 97, fun hmem => absurd (List.eq_of_mem_replicate hmem) (by decide)⟩
  let arrival : Arrival := ⟨4, 65536, by decide, by decide⟩
  have hwhole := buffered_of_whole response arrival []
    fun memory => (h [(response, arrival)] [memory] rfl).1
  have hbody := hwhole.2.2
  simp only [response, arrival, List.length_replicate] at hbody
  omega

end AdvancedCProjects.Bibo.Responses
