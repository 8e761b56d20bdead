import AdvancedCProjects.Base.Strtok
import AdvancedCProjects.Bibak.Recorded

/-!
# Strings received into used memory (BibakBOXServer.c:223-377, BibakBOXClient.c:665-683)

A name is received into a block that holds whatever was there before, and is then read as
a C string. Only `handle_update` puts a zero byte behind it.
-/

namespace AdvancedCProjects.Bibak
open Base

/-- The C string at the beginning of the memory; `none` if no zero byte ends it. -/
def terminated (memory : Bytes) : Option Bytes :=
  if (0 : Byte) ∈ memory then some (cstr memory) else none

/-- `fileName` in `handle_create` and `handle_delete`, and `path` in the client's `main`:
`stale` is what stands behind the bytes received. -/
def receivedString (received stale : Bytes) : Option Bytes := terminated (received ++ stale)

/-- `fileName` in `handle_update`. -/
def receivedStringOfUpdate (received stale : Bytes) : Option Bytes :=
  terminated ((received ++ stale).set received.length 0)

/-- `handle_create` and `handle_delete` act on this path. -/
def resultPath (basePath received stale : Bytes) : Option Path :=
  (receivedString received stale).map fun fileName => configurePath fileName basePath

def resultPathOfUpdate (basePath received stale : Bytes) : Option Path :=
  (receivedStringOfUpdate received stale).map fun fileName => configurePath fileName basePath

/-- Where the client puts an entry of the server's directory. -/
def receivedDestination (received stale : Bytes) (destinationDirectory : Path) (e : FilePath) :
    Option Path :=
  (receivedString received stale).map fun path => destinationPath path destinationDirectory e

structure ActsOnReceived (received stale : Bytes) : Prop where
  result : ∀ basePath, resultPath basePath received stale = some (basePath ++ received)
  update : ∀ basePath, resultPathOfUpdate basePath received stale = some (basePath ++ received)
  destination : ∀ destinationDirectory e,
    receivedDestination received stale destinationDirectory e =
      some (destinationPath received destinationDirectory e)

section Strings
variable {received stale : Bytes}

theorem receivedString_eq_iff : receivedString received stale = some received ↔
    (0 : Byte) ∉ received ∧ stale.head? = some 0 := by
  unfold receivedString terminated
  constructor
  · intro h
    split at h
    · next hzero =>
      have hcstr := Option.some.inj h
      have hno : (0 : Byte) ∉ received := by
        rw [← hcstr]
        exact zero_not_mem_cstr _
      apply And.intro hno
      rw [cstr_append_of_noZero hno, List.append_right_eq_self] at hcstr
      cases stale with
      | nil => simp [hno] at hzero
      | cons b stale =>
        by_contra hb
        have hb : b ≠ 0 := fun heq => hb (by rw [heq]; rfl)
        simp [cstr, hb] at hcstr
    · contradiction
  · rintro ⟨hno, hhead⟩
    obtain ⟨rest, rfl⟩ := List.head?_eq_some_iff.mp hhead
    rw [if_pos (by simp), cstr_append hno]

theorem receivedStringOfUpdate_eq (hno : (0 : Byte) ∉ received) (hroom : stale ≠ []) :
    receivedStringOfUpdate received stale = some received := by
  cases stale with
  | nil => contradiction
  | cons b stale =>
    have hset : (received ++ b :: stale).set received.length 0 = received ++ 0 :: stale := by
      rw [List.set_append_right _ _ le_rfl, Nat.sub_self, List.set_cons_zero]
    rw [receivedStringOfUpdate, terminated, hset, if_pos (by simp), cstr_append hno]

end Strings

theorem actsOnReceived_iff (received stale : Bytes) :
    ActsOnReceived received stale ↔ (0 : Byte) ∉ received ∧ stale.head? = some 0 := by
  rw [← receivedString_eq_iff]
  constructor
  · intro h
    have hresult := h.result []
    unfold resultPath configurePath at hresult
    obtain ⟨fileName, hname, heq⟩ := Option.map_eq_some_iff.mp hresult
    rw [hname]
    exact congrArg some heq
  · intro h
    obtain ⟨hno, hhead⟩ := receivedString_eq_iff.mp h
    have hroom : stale ≠ [] := by
      intro hnil
      rw [hnil] at hhead
      contradiction
    apply ActsOnReceived.mk
    · intro basePath
      rw [resultPath, h]
      rfl
    · intro basePath
      rw [resultPathOfUpdate, receivedStringOfUpdate_eq hno hroom]
      rfl
    · intro destinationDirectory e
      rw [receivedDestination, h]
      rfl

/-- The bytes `b`, 0 are left over behind the name `a`. -/
theorem stale_name : resultPath (utf8 "/s/") (utf8 "a") (utf8 "b" ++ [0]) = some (utf8 "/s/ab") ∧
    resultPath (utf8 "/s/") (utf8 "a") [0] = some (utf8 "/s/a") := by decide

end AdvancedCProjects.Bibak
