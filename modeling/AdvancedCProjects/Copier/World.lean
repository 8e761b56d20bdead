import AdvancedCProjects.Base.File
import AdvancedCProjects.Base.Forest
import AdvancedCProjects.Copier.Destinations

/-!
# The copier on a tree of files (program.c:171-436)

The source is a tree that does not change, read by path; the destination is what
`mkdir`, `open`, `write`, `unlink` and `mkfifo` have made of it. The world answers
the calls of the program and lets none of them fail: a descriptor stands for a file
and an offset, `read` and `write` move the bytes, and every `write` takes all it is
given.
-/

namespace AdvancedCProjects.Copier
open Base

/-- What a directory holds besides directories. -/
inductive Leaf where
  | regular (content : Bytes)
  | fifo
  | other
  deriving DecidableEq

inductive SourceNode where
  | directory (names : List Bytes)
  | leaf (x : Leaf)
  deriving DecidableEq

inductive DestNode where
  | directory
  | regular (content : Bytes)
  | fifo
  deriving DecidableEq

/-- What a descriptor stands for, with its offset. -/
inductive Opened where
  | source (path : Bytes) (offset : ℕ)
  | dest (path : Bytes) (offset : ℕ)
  deriving DecidableEq

abbrev Source := Bytes → Option SourceNode

def Leaf.mode : Leaf → FileType
  | .regular _ => .regular
  | .fifo => .fifo
  | .other => .other

def SourceNode.mode : SourceNode → FileType
  | .directory _ => .directory
  | .leaf x => x.mode

def SourceNode.regular? : SourceNode → Option Bytes
  | .leaf (.regular content) => some content
  | _ => none

/-- What is in the regular file at the path. -/
def Source.content (source : Source) (path : Bytes) : Option Bytes :=
  (source path).bind SourceNode.regular?

/-- `streams` are the names that `readdir` has still to return to a thread, `bufs`
the buffers of `copy_fd`; `done` records the entries that the traversal has dealt
with. -/
structure World where
  streams : ℕ → List Bytes
  files : ℕ → Option Opened
  bufs : ℕ → Bytes
  dest : Bytes → Option DestNode
  done : List (List Bytes × FileType)

namespace World

def openAs (w : World) (fd : ℕ) (file : Option Opened) : World :=
  { w with files := Function.update w.files fd file }

def put (w : World) (path : Bytes) (node : Option DestNode) : World :=
  { w with dest := Function.update w.dest path node }

def finish (w : World) (path : List Bytes) (type : FileType) : World :=
  { w with done := w.done ++ [(path, type)] }

/-- What the calls of thread `i` of the traversal find, at the entry `path`. -/
def traverse (source : Source) (s : State) (path : List Bytes) (i : ℕ) (th : Traversal)
    (w : World) : TraversalPc → Reply → Option World
  | .opendir, .ok =>
    match source (s.read th.sourceDir) with
    | some (.directory names) => some { w with streams := Function.update w.streams i names }
    | _ => none
  | .readdir, .failure => if w.streams i = [] then some w else none
  | .readdir, .entry name =>
    if name = utf8 "." ∨ name = utf8 ".." then some w
    else match w.streams i with
      | next :: rest =>
        if name = next ∧ 47 ∉ name then some { w with streams := Function.update w.streams i rest }
        else none
      | [] => none
  | .stat _, .mode type =>
    if (source th.srcPath).map SourceNode.mode = some type then
      some (if type = .other then w.finish path .other else w)
    else none
  -- a directory that is there already is kept
  | .mkdir, .ok =>
    match w.dest th.destSubdir with
    | none => some (w.put th.destSubdir (some .directory))
    | some .directory => some w
    | _ => none
  | .create, .ok => some (w.finish path .directory)
  | .openSrc _, .fd fd =>
    if source.content th.srcPath = none then none
    else some (w.openAs fd (some (.source th.srcPath 0)))
  -- O_CREAT and O_TRUNC
  | .openDest _ _, .fd fd =>
    match w.dest th.destPath with
    | none | some (.regular _) =>
      some ((w.put th.destPath (some (.regular []))).openAs fd (some (.dest th.destPath 0)))
    | _ => none
  | .add _, .ok => some (w.finish path .regular)
  | .access, .ok => if w.dest th.destPath = none then none else some w
  | .access, .failure => if w.dest th.destPath = none then some w else none
  | .unlink, .ok =>
    match w.dest th.destPath with
    | some (.regular _) | some .fifo => some (w.put th.destPath none)
    | _ => none
  | .mkfifo, .ok =>
    if w.dest th.destPath = none then
      some ((w.put th.destPath (some .fifo)).finish path .fifo)
    else none
  | _, .failure => none
  | _, .entry _ => none
  | _, _ => some w

/-- What the calls of worker `i` find. -/
def work (source : Source) (w : World) (i : ℕ) : WorkerPc → Reply → Option World
  | .read task, .count n =>
    match w.files task.srcFd with
    | some (.source path offset) =>
      (source.content path).bind fun content =>
        if n = 0 then
          if content.length ≤ offset then some w else none
        else if offset + n ≤ content.length then
          some { w.openAs task.srcFd (some (.source path (offset + n))) with
            bufs := Function.update w.bufs i ((content.drop offset).take n) }
        else none
    | _ => none
  | .write task bytesRead, .count n =>
    match w.files task.destFd with
    | some (.dest path offset) =>
      match w.dest path with
      | some (.regular data) =>
        if n = bytesRead then
          some ((w.put path (some (.regular (writeAt data offset ((w.bufs i).take n))))).openAs
            task.destFd (some (.dest path (offset + n))))
        else none
      | _ => none
    | _ => none
  | .closeSrc task, .ok => some (w.openAs task.srcFd none)
  | .closeDest task, .ok => some (w.openAs task.destFd none)
  | _, .failure => none
  | _, _ => some w

def next (source : Source) (x : State × Names) (a : Action) (w : World) : Option World :=
  match a with
  | .main .failure => none
  | .traverse i reply => x.1.traversals[i]?.bind fun th =>
      w.traverse source x.1 (x.2.visits i).path i th th.pc reply
  | .work i reply => x.1.workers[i]?.bind fun pc => w.work source i pc reply
  | .main _ | .spurious _ => some w

/-- Nothing is open or done; the destination may hold something. -/
structure Start (dest : Bytes → Option DestNode) (w : World) : Prop where
  dest : w.dest = dest
  done : w.done = []

end World

/-- The program on `source`, copying from `sourceDir` to `destPath`. -/
def backup (size threads : ℕ) (sourceDir destPath : Bytes) (source : Source)
    (dest : Bytes → Option DestNode) : Machine ((State × Names) × World) Action :=
  (namedCopier size threads sourceDir destPath).beside (World.Start dest) (World.next source)

section Next
variable {source : Source} {s : State} {x : State × Names} {path : List Bytes} {i : ℕ}
  {th : Traversal} {pc : TraversalPc} {a : Action} {w w' : World} {name : Bytes}

/-- The names that the world lets `readdir` return have no slash. -/
theorem World.entry_name (h : w.traverse source s path i th pc (.entry name) = some w') :
    47 ∉ name := by
  unfold traverse at h
  split at h
  case h_3 heq =>
    cases heq
    split at h
    · next hdots => rcases hdots with rfl | rfl <;> decide
    · split at h
      · split at h
        · next hname => exact hname.2
        · contradiction
      · contradiction
  all_goals first | contradiction | simp_all

theorem World.next_namesOk (h : w.next source x a = some w') : NamesOk x.1 a := by
  cases a with
  | traverse i reply =>
    cases reply with
    | entry name =>
      obtain ⟨th, -, h⟩ := Option.bind_eq_some_iff.mp h
      exact entry_name h
    | _ => trivial
  | _ => trivial

theorem World.work_walk {source : Source} {pc : WorkerPc} {r : Reply}
    (h : w.work source i pc r = some w') : w'.streams = w.streams ∧ w'.done = w.done := by
  unfold work at h
  split at h
  · split at h
    · obtain ⟨content, -, h⟩ := Option.bind_eq_some_iff.mp h
      split at h
      · split at h
        · cases h
          exact ⟨rfl, rfl⟩
        · contradiction
      · split at h
        · cases h
          exact ⟨rfl, rfl⟩
        · contradiction
    · contradiction
  · split at h
    · split at h
      · split at h
        · cases h
          exact ⟨rfl, rfl⟩
        · contradiction
      · contradiction
    · contradiction
  · cases h
    exact ⟨rfl, rfl⟩
  · cases h
    exact ⟨rfl, rfl⟩
  · contradiction
  · cases h
    exact ⟨rfl, rfl⟩

theorem backup_next {size threads : ℕ} {sourceDir destPath : Bytes}
    {dest : Bytes → Option DestNode} {x y : (State × Names) × World}
    (h : (backup size threads sourceDir destPath source dest).next x a = some y) :
    (copier size threads).next x.1.1 a = some y.1.1 ∧ y.1.2 = Names.record x.1.1 a x.1.2 ∧
      World.next source x.1 a x.2 = some y.2 := by
  obtain ⟨hnext, hworld⟩ := Machine.beside_next h
  obtain ⟨t, ht, heq⟩ := Option.map_eq_some_iff.mp hnext
  rw [← heq]
  exact ⟨ht, rfl, hworld⟩

end Next

end AdvancedCProjects.Copier
