import AdvancedCProjects.Base.Machine
import AdvancedCProjects.Base.Ring
import AdvancedCProjects.Copier.Hashtable

/-!
# The copier (program.c)

One step is one action of one thread: of `main`, of a thread in
`traverse_directory` or of a worker. What the system calls return, and so the
tree of files, is carried by the step. A thread in `pthread_cond_wait` has
released the mutex and is asleep until a signal, a broadcast or a spurious
wake-up; it then takes the mutex again.
-/

namespace AdvancedCProjects.Copier
open Base

/-- The stack buffers that strings are passed by pointer from: of `main`, and of
each thread of the traversal. -/
inductive Cell where
  | mainSource
  | mainDest
  | srcPath (thread : ℕ)
  | destPath (thread : ℕ)
  | destSubdir (thread : ℕ)
  deriving DecidableEq

structure Task where
  srcFd : ℕ
  destFd : ℕ
  filename : Cell
  deriving DecidableEq

/-- A task as it is added, with the name of the entry and the two paths. -/
structure Added where
  task : Task
  name : Bytes
  source : Bytes
  dest : Bytes
  deriving DecidableEq

inductive Handling where
  | copied (task : Task)
  | closed (fd : ℕ)
  deriving DecidableEq

inductive Thread where
  | main
  | traversal (i : ℕ)
  | worker (i : ℕ)
  deriving DecidableEq

structure OpenFile where
  name : Bytes
  srcFd : ℕ
  destFd : ℕ
  deriving DecidableEq

/-- The critical sections of `output_mutex` in `traverse_directory`: an error
message, or a statistic. -/
inductive TraversalOutput where
  | failedOpendir
  | failed
  | failedDest (srcFd : ℕ)
  | directory
  | regularFile
  | fifo
  deriving DecidableEq

inductive TraversalPc where
  | opendir
  | readdir
  | stat (name : Bytes)
  | mkdir
  | create
  | join (thread : ℕ)
  | openSrc (name : Bytes)
  | openDest (name : Bytes) (srcFd : ℕ)
  | closeSrc (srcFd : ℕ)
  | insert (file : OpenFile)
  | lockBuffer (file : OpenFile)
  | testFull (file : OpenFile)
  | wait (file : OpenFile)
  | asleep (file : OpenFile)
  | woken (file : OpenFile)
  | add (file : OpenFile)
  | signal
  | unlock
  | access
  | unlink
  | mkfifo
  | lockOutput (o : TraversalOutput)
  | inOutput (o : TraversalOutput)
  | unlockOutput (o : TraversalOutput)
  | exited
  deriving DecidableEq

/-- `sourceDir` and `destDir` are the pointers in `args`. -/
structure Traversal where
  sourceDir : Cell
  destDir : Cell
  srcPath : Bytes
  destPath : Bytes
  destSubdir : Bytes
  pc : TraversalPc
  deriving DecidableEq

inductive WorkerOutput where
  | failedWrite
  | failedRead
  | bytes (bytesWritten : ℕ)
  deriving DecidableEq

inductive WorkerPc where
  | lock
  | test
  | wait
  | asleep
  | woken
  | exitTest
  | take
  | copy (task : Task)
  | read (task : Task)
  | write (task : Task) (bytesRead : ℕ)
  | lockOutput (task : Task) (o : WorkerOutput)
  | inOutput (task : Task) (o : WorkerOutput)
  | unlockOutput (task : Task) (o : WorkerOutput)
  | closeSrc (task : Task)
  | closeDest (task : Task)
  | signal
  | unlock
  | exitUnlock
  | exitSignal
  | exited
  deriving DecidableEq

inductive MainPc where
  | createRoot
  | createWorkers
  | joinRoot
  | lockOutput
  | setDone
  | unlockOutput
  | broadcast
  | joinWorker (i : ℕ)
  | report
  | returned
  deriving DecidableEq

structure Statistics where
  regularFiles : ℤ
  directories : ℤ
  bytesCopied : ℤ
  fifosCopied : ℤ
  hashtable : Hashtable
  deriving DecidableEq

/-- `fds` are the descriptors of files that are open; `added`, `handled` and
`written` record the tasks, what the workers did and what `write` returned. -/
structure State where
  sourceDir : Bytes
  destPath : Bytes
  done : Bool
  buffer : RingBuffer Task
  bufferMutex : Option Thread
  outputMutex : Option Thread
  main : MainPc
  traversals : List Traversal
  workers : List WorkerPc
  stats : Statistics
  fds : List ℕ
  added : List Added
  handled : List Handling
  written : ℕ

inductive FileType where
  | directory
  | regular
  | fifo
  | other
  deriving DecidableEq

/-- What a call returns. `wake` is the sleeper that a signal reaches, if there
is one. -/
inductive Reply where
  | ok
  | failure
  | entry (name : Bytes)
  | mode (type : FileType)
  | fd (fd : ℕ)
  | count (n : ℕ)
  | wake (sleeper : Option ℕ)
  deriving DecidableEq

inductive Action where
  | main (reply : Reply)
  | traverse (i : ℕ) (reply : Reply)
  | work (i : ℕ) (reply : Reply)
  | spurious (thread : Thread)
  deriving DecidableEq

def snprintf (dir name : Bytes) : Bytes := (dir ++ utf8 "/" ++ name).take 1023

def fileExtension (name : Bytes) : Bytes :=
  if 46 ∈ name then (name.reverse.takeWhile (· ≠ 46)).reverse
  else utf8 "unidentified file"

def bufSize : ℕ := 1024

def TraversalOutput.after : TraversalOutput → TraversalPc
  | .failedOpendir => .exited
  | .failedDest srcFd => .closeSrc srcFd
  | _ => .readdir

def WorkerOutput.after (task : Task) : WorkerOutput → WorkerPc
  | .bytes _ => .read task
  | _ => .closeSrc task

def Traversal.start (sourceDir destDir : Cell) : Traversal :=
  ⟨sourceDir, destDir, [], [], [], .opendir⟩

def TraversalPc.wake : TraversalPc → TraversalPc
  | .asleep file => .woken file
  | pc => pc

def WorkerPc.wake : WorkerPc → WorkerPc
  | .asleep => .woken
  | pc => pc

def TraversalPc.isAsleep : TraversalPc → Bool
  | .asleep _ => true
  | _ => false

def Statistics.insert (stats : Statistics) (key : Bytes) : Statistics :=
  { stats with hashtable := stats.hashtable.insert key (stats.hashtable.get key + 1) }

def Statistics.traversal (stats : Statistics) : TraversalOutput → Statistics
  | .directory => { stats with directories := wrapInt 4 (stats.directories + 1) }
  | .regularFile => { stats with regularFiles := wrapInt 4 (stats.regularFiles + 1) }
  | .fifo =>
    { stats.insert (utf8 "fifo") with fifosCopied := wrapInt 4 (stats.fifosCopied + 1) }
  | _ => stats

def Statistics.worker (stats : Statistics) : WorkerOutput → Statistics
  | .bytes n => { stats with bytesCopied := wrapInt 4 (stats.bytesCopied + n) }
  | _ => stats

namespace State

def read (s : State) : Cell → Bytes
  | .mainSource => s.sourceDir
  | .mainDest => s.destPath
  | .srcPath i => (s.traversals[i]?.map Traversal.srcPath).getD []
  | .destPath i => (s.traversals[i]?.map Traversal.destPath).getD []
  | .destSubdir i => (s.traversals[i]?.map Traversal.destSubdir).getD []

def wakeWorker (s : State) (j : ℕ) : Option State :=
  if s.workers[j]? = some .asleep then some { s with workers := s.workers.set j .woken } else none

def wakeTraversal (s : State) (j : ℕ) : Option State :=
  match s.traversals[j]? with
  | some th =>
    if th.pc.isAsleep then
      some { s with traversals := s.traversals.set j { th with pc := th.pc.wake } }
    else none
  | none => none

/-- `pthread_cond_signal(&buffer_not_empty)` wakes one of the sleepers. -/
def signalNotEmpty (s : State) : Reply → Option State
  | .wake (some j) => s.wakeWorker j
  | .wake none => if .asleep ∈ s.workers then none else some s
  | _ => none

def signalNotFull (s : State) : Reply → Option State
  | .wake (some j) => s.wakeTraversal j
  | .wake none => if s.traversals.any (·.pc.isAsleep) then none else some s
  | _ => none

def lockBuffer (s : State) (me : Thread) : Option State :=
  if s.bufferMutex = none then some { s with bufferMutex := some me } else none

def unlockBuffer (s : State) : State := { s with bufferMutex := none }

def lockOutput (s : State) (me : Thread) : Option State :=
  if s.outputMutex = none then some { s with outputMutex := some me } else none

def unlockOutput (s : State) : State := { s with outputMutex := none }

def openFd (s : State) (fd : ℕ) : Option State :=
  if fd ∈ s.fds then none else some { s with fds := fd :: s.fds }

def closeFd (s : State) (fd : ℕ) : State := { s with fds := s.fds.erase fd }

def goto (s : State) (i : ℕ) (th : Traversal) (pc : TraversalPc) : State :=
  { s with traversals := s.traversals.set i { th with pc := pc } }

def workerAt (s : State) (i : ℕ) (pc : WorkerPc) : State :=
  { s with workers := s.workers.set i pc }

/-- `traverse_directory`. -/
def traverse (size : ℕ) (s : State) (i : ℕ) (th : Traversal) : TraversalPc → Reply → Option State
  | .opendir, .ok => some (s.goto i th .readdir)
  | .opendir, .failure => some (s.goto i th (.lockOutput .failedOpendir))
  | .readdir, .failure => some (s.goto i th .exited)
  | .readdir, .entry name =>
    if name = utf8 "." ∨ name = utf8 ".." then some s
    else some (s.goto i { th with
      srcPath := snprintf (s.read th.sourceDir) name
      destPath := snprintf (s.read th.destDir) name } (.stat name))
  | .stat _, .failure => some (s.goto i th (.lockOutput .failed))
  | .stat name, .mode .directory =>
    some (s.goto i { th with destSubdir := snprintf (s.read th.destDir) name } .mkdir)
  | .stat name, .mode .regular => some (s.goto i th (.openSrc name))
  | .stat _, .mode .fifo => some (s.goto i th .access)
  | .stat _, .mode .other => some (s.goto i th .readdir)
  -- `ok` is also `EEXIST`
  | .mkdir, .ok => some (s.goto i th .create)
  | .mkdir, .failure => some (s.goto i th (.lockOutput .failed))
  | .create, .ok =>
    let s' := s.goto i th (.join s.traversals.length)
    some { s' with traversals := s'.traversals ++ [.start (.srcPath i) (.destSubdir i)] }
  | .create, .failure => some (s.goto i th (.lockOutput .failed))
  | .join j, .ok =>
    if s.traversals[j]?.map Traversal.pc = some .exited then
      some (s.goto i th (.lockOutput .directory))
    else none
  | .openSrc name, .fd fd => (s.goto i th (.openDest name fd)).openFd fd
  | .openSrc _, .failure => some (s.goto i th (.lockOutput .failed))
  | .openDest name srcFd, .fd fd => (s.goto i th (.insert ⟨name, srcFd, fd⟩)).openFd fd
  | .openDest _ srcFd, .failure => some (s.goto i th (.lockOutput (.failedDest srcFd)))
  | .closeSrc srcFd, .ok => some ((s.goto i th .readdir).closeFd srcFd)
  | .insert file, .ok =>
    let s' := s.goto i th (.lockBuffer file)
    some { s' with stats := s.stats.insert (fileExtension file.name) }
  -- add_task_to_buffer
  | .lockBuffer file, .ok | .woken file, .ok =>
    (s.goto i th (.testFull file)).lockBuffer (.traversal i)
  | .testFull file, .ok =>
    if (s.buffer.inp + 1) % size = s.buffer.out then some (s.goto i th (.wait file))
    else some (s.goto i th (.add file))
  | .wait file, .ok => some (s.goto i th (.asleep file)).unlockBuffer
  | .add file, .ok =>
    let task := ⟨file.srcFd, file.destFd, .destPath i⟩
    let s' := s.goto i th .signal
    some { s' with
      buffer := s.buffer.put size task
      added := s.added ++ [⟨task, file.name, th.srcPath, th.destPath⟩] }
  | .signal, reply => (s.goto i th .unlock).signalNotEmpty reply
  | .unlock, .ok => some (s.goto i th (.lockOutput .regularFile)).unlockBuffer
  -- a FIFO
  | .access, .ok => some (s.goto i th .unlink)
  | .access, .failure => some (s.goto i th .mkfifo)
  | .unlink, .ok => some (s.goto i th .mkfifo)
  | .unlink, .failure => some (s.goto i th (.lockOutput .failed))
  | .mkfifo, .ok => some (s.goto i th (.lockOutput .fifo))
  | .mkfifo, .failure => some (s.goto i th (.lockOutput .failed))
  | .lockOutput o, .ok => (s.goto i th (.inOutput o)).lockOutput (.traversal i)
  | .inOutput o, .ok =>
    let s' := s.goto i th (.unlockOutput o)
    some { s' with stats := s.stats.traversal o }
  | .unlockOutput o, .ok => some (s.goto i th o.after).unlockOutput
  | _, _ => none

/-- `worker_thread`, with `process_task_from_buffer` and `copy_fd`. -/
def work (size : ℕ) (s : State) (i : ℕ) : WorkerPc → Reply → Option State
  | .lock, .ok | .woken, .ok => (s.workerAt i .test).lockBuffer (.worker i)
  | .test, .ok =>
    if s.buffer.inp = s.buffer.out ∧ s.done = false then some (s.workerAt i .wait)
    else some (s.workerAt i .exitTest)
  -- `main` may set `done` before this
  | .wait, .ok => some (s.workerAt i .asleep).unlockBuffer
  | .exitTest, .ok =>
    if s.done = true ∧ s.buffer.inp = s.buffer.out then some (s.workerAt i .exitUnlock)
    else some (s.workerAt i .take)
  | .take, .ok =>
    let s' := s.workerAt i (.copy (s.buffer.slots s.buffer.out))
    some { s' with buffer := s.buffer.drop size }
  | .copy task, .ok =>
    let s' := s.workerAt i (.read task)
    some { s' with handled := s.handled ++ [.copied task] }
  | .read task, .count 0 => some (s.workerAt i (.closeSrc task))
  | .read task, .count (n + 1) =>
    if n + 1 ≤ bufSize then some (s.workerAt i (.write task (n + 1))) else none
  | .read task, .failure => some (s.workerAt i (.lockOutput task .failedRead))
  | .write task bytesRead, .count n =>
    if n ≤ bytesRead then
      let s' := s.workerAt i (.lockOutput task (.bytes n))
      some { s' with written := s.written + n }
    else none
  | .write task _, .failure => some (s.workerAt i (.lockOutput task .failedWrite))
  | .lockOutput task o, .ok => (s.workerAt i (.inOutput task o)).lockOutput (.worker i)
  | .inOutput task o, .ok =>
    let s' := s.workerAt i (.unlockOutput task o)
    some { s' with stats := s.stats.worker o }
  | .unlockOutput task o, .ok => some (s.workerAt i (o.after task)).unlockOutput
  | .closeSrc task, .ok =>
    let s' := s.workerAt i (.closeDest task)
    some { s'.closeFd task.srcFd with handled := s.handled ++ [.closed task.srcFd] }
  | .closeDest task, .ok =>
    let s' := s.workerAt i .signal
    some { s'.closeFd task.destFd with handled := s.handled ++ [.closed task.destFd] }
  | .signal, reply => (s.workerAt i .unlock).signalNotFull reply
  | .unlock, .ok => some (s.workerAt i .lock).unlockBuffer
  | .exitUnlock, .ok => some (s.workerAt i .exitSignal).unlockBuffer
  | .exitSignal, reply => (s.workerAt i .exited).signalNotFull reply
  | _, _ => none

/-- `main` from the creation of the root thread on. -/
def mainStep (threads : ℕ) (s : State) : MainPc → Reply → Option State
  | .createRoot, .ok =>
    some { s with traversals := [.start .mainSource .mainDest], main := .createWorkers }
  | .createRoot, .failure => some { s with main := .returned }
  | .createWorkers, reply =>
    if s.workers.length < threads then match reply with
      | .ok => some { s with workers := s.workers ++ [.lock], main := .createWorkers }
      | .failure => some { s with main := .returned }
      | _ => none
    else some { s with main := .joinRoot }
  | .joinRoot, .ok =>
    if s.traversals[0]?.map Traversal.pc = some .exited then some { s with main := .lockOutput }
    else none
  | .lockOutput, .ok => ({ s with main := .setDone } : State).lockOutput .main
  | .setDone, .ok => some { s with done := true, main := .unlockOutput }
  | .unlockOutput, .ok => some ({ s with main := .broadcast } : State).unlockOutput
  | .broadcast, .ok =>
    some { s with workers := s.workers.map WorkerPc.wake, main := .joinWorker 0 }
  | .joinWorker i, .ok =>
    if i < threads then
      if s.workers[i]? = some .exited then some { s with main := .joinWorker (i + 1) } else none
    else some { s with main := .report }
  | .report, .ok => some { s with main := .returned }
  | _, _ => none

/-- `pthread_cond_wait` may return without a signal. -/
def spurious (s : State) : Thread → Option State
  | .worker i => s.wakeWorker i
  | .traversal i => s.wakeTraversal i
  | .main => none

/-- When `main` returns the process is over. -/
def next (size threads : ℕ) (s : State) (a : Action) : Option State :=
  if s.main = .returned then none
  else match a with
  | .main reply => s.mainStep threads s.main reply
  | .traverse i reply => s.traversals[i]?.bind fun th => s.traverse size i th th.pc reply
  | .work i reply => s.workers[i]?.bind fun pc => s.work size i pc reply
  | .spurious thread => s.spurious thread

structure Start (s : State) : Prop where
  done : s.done = false
  inp : s.buffer.inp = 0
  out : s.buffer.out = 0
  bufferMutex : s.bufferMutex = none
  outputMutex : s.outputMutex = none
  main : s.main = .createRoot
  traversals : s.traversals = []
  workers : s.workers = []
  stats : s.stats = ⟨0, 0, 0, 0, createHashtable⟩
  fds : s.fds = []
  added : s.added = []
  handled : s.handled = []
  written : s.written = 0

end State

def copier (size threads : ℕ) : Machine State Action where
  start := State.Start
  next := State.next size threads

end AdvancedCProjects.Copier
