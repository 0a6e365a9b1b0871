import Caffeinix.Sched.WaitRun
import Mathlib.Data.List.FinRange

/-!
# `Fs.OpenFile` — open files, descriptors and pipe ends (`kernel/fs/file.c`, `vfs.c`, `pipe.c`)

A `struct vfs_file` lives as long as somebody has a reference to it: a slot of a descriptor table, an area of an
address space, an entry of the page cache, or a thread in the middle of a call, in a local variable. When the
last reference goes the `release` operation runs; for an end of a pipe it takes the end away, and the other end
sees it.

What a thread has in its variables is a list of references, and while it forks or executes also the tables and
areas of the process that is being made. A thread that is told to exit while it sleeps goes from the sleep to
`process_thread_exit`: it never comes back to its variables.

A step is what happens under `files_lock` or `file_table.lock`, or under the lock of a pipe up to `sched()`.
Paths, positions, and `write_open_count` and `exec_open_count` of the inodes are left out, and so are the bytes
in the pipes and `vfork`.
-/

namespace Caffeinix.Fs

open Sched
open Function (update)

/-- `NFILE`. -/
def nfile : Nat := 100

/-- `NOFILE`. -/
def nofile : Nat := 16

instance : NeZero nfile := ⟨by decide⟩
instance : NeZero nofile := ⟨by decide⟩

abbrev FileId := Fin nfile
abbrev Fd := Fin nofile

def vfsErrBadf : Int := -4
def vfsErrAgain : Int := -23
def vfsErrPipe : Int := -48
def vfsErrIntr : Int := -49

/-- `PIPE_CAPACITY`. -/
def pipeCapacity : Nat := 4096

/-- `struct vfs_file`: the two counts, `inode_access`, and `flags` and `private` of the end of a pipe. -/
structure VfsFile (Pipe : Type) where
  ref : Nat
  accessRef : Nat
  inodeAccess : Bool
  openRead : Bool
  openWrite : Bool
  pipe : Option Pipe
deriving DecidableEq

/-- After `memset`. -/
def VfsFile.free {Pipe : Type} : VfsFile Pipe := ⟨0, 0, false, false, false, none⟩

/-- A reference to a file, from `file_dup` or, without access to the inode, from `file_hold`. -/
structure Reference where
  file : FileId
  access : Bool
deriving DecidableEq

/-- `struct vfs_pipe`, without the bytes. -/
structure VfsPipe where
  readers : Nat
  writers : Nat
  used : Nat
  readBusy : Bool
deriving DecidableEq

/-- The two queues of a pipe. -/
inductive PipeQueue (Pipe : Type)
  | readWait (pipe : Pipe)
  | writeWait (pipe : Pipe)
deriving DecidableEq

/-- Where a thread is in `pipe_readv` or `pipe_write_staged`, with the file. -/
inductive PipeCall
  /-- in the loop of `pipe_readv` -/
  | reading (file : FileId) (requested : Nat) (nonblock : Bool)
  /-- after it, with `read_busy` -/
  | copying (file : FileId) (available : Nat)
  /-- in the loop of `pipe_write_staged` -/
  | writing (file : FileId) (count total : Nat) (atomic nonblock : Bool)
deriving DecidableEq

def PipeCall.file : PipeCall → FileId
  | .reading file _ _ | .copying file _ | .writing file _ _ _ _ => file

/-- The tables and areas of a process that is being made. -/
structure Draft where
  slots : Fd → Option FileId
  areas : List Reference

def Draft.none : Draft := ⟨fun _ => Option.none, []⟩

/-- The checks of `file.c` and `pipe.c`. -/
inductive FilePanic
  | fileDup
  | fileHold
  | fileClose
  | fileAccessReference
  | releaseAccessedFile
  | pipeReaderUnderflow
  | pipeWriterUnderflow
  | releasePipeWithWaiters
  | invalidUserThreadExit
deriving DecidableEq

/-- The file table, everybody's references, the pipes, and the threads. -/
structure Files (Tid Pid Pipe Other Private : Type) where
  waits : Waits Tid (PipeQueue Pipe ⊕ Other) Private
  file : FileId → VfsFile Pipe
  /-- `process->ofile` -/
  slots : Pid → Fd → Option FileId
  /-- `process->fd_flags`: `VFS_FD_CLOEXEC` -/
  closeOnExec : Pid → Fd → Bool
  /-- the files of `process->vmas` -/
  areas : Pid → List Reference
  /-- the files of `page_cache.entries` -/
  cache : List Reference
  /-- what a thread has in its variables -/
  locals : Tid → List Reference
  draft : Tid → Draft
  /-- `released` of the `file_release` that a thread has not finished -/
  released : Tid → Option (VfsFile Pipe)
  pipe : Pipe → VfsPipe
  call : Tid → Option PipeCall
  home : Tid → Option Pid
  liveThreads : Pid → Nat
  /-- the process structure is in use and the process not a zombie -/
  alive : Pid → Bool
  /-- the thread is in `process_thread_exit` -/
  exiting : Tid → Bool
  /-- and has left `live_threads` -/
  detached : Tid → Bool
  /-- as the last one -/
  last : Tid → Bool
  panic : Option FilePanic

variable {Tid Pid Pipe Other Private : Type}

def Files.boot : Files Tid Pid Pipe Other Private where
  waits := .boot
  file := fun _ => .free
  slots := fun _ _ => none
  closeOnExec := fun _ _ => false
  areas := fun _ => []
  cache := []
  locals := fun _ => []
  draft := fun _ => .none
  released := fun _ => none
  pipe := fun _ => ⟨0, 0, 0, false⟩
  call := fun _ => none
  home := fun _ => none
  liveThreads := fun _ => 0
  alive := fun _ => false
  exiting := fun _ => false
  detached := fun _ => false
  last := fun _ => false
  panic := none

variable [DecidableEq Tid] [DecidableEq Pid] [DecidableEq Pipe] [DecidableEq Other]

/-! ## `file.c` -/

variable (s : Files Tid Pid Pipe Other Private)

/-- `file_alloc`. -/
def fileAlloc : Option FileId :=
  (List.finRange nfile).find? fun f => (s.file f).ref = 0

def Files.setFile (f : FileId) (file : VfsFile Pipe) :
    Files Tid Pid Pipe Other Private := { s with file := update s.file f file }

/-- `file_dup`. -/
def fileDup (f : FileId) : Files Tid Pid Pipe Other Private :=
  let file := s.file f
  if file.ref < 1 then { s with panic := some .fileDup }
  else
    s.setFile f { file with
      ref := file.ref + 1
      accessRef := if file.inodeAccess then file.accessRef + 1 else file.accessRef }

/-- `file_hold`. -/
def fileHold (f : FileId) : Files Tid Pid Pipe Other Private :=
  let file := s.file f
  if file.ref < 1 then { s with panic := some .fileHold } else s.setFile f { file with ref := file.ref + 1 }

/-- `access_ref--` in `file_release`, and `vfs_file_release_inode_access`. -/
def releaseAccess (file : VfsFile Pipe) (access : Bool) : VfsFile Pipe :=
  if access && file.inodeAccess then
    let accessRef := file.accessRef - 1
    { file with accessRef := accessRef, inodeAccess := if accessRef = 0 then false else file.inodeAccess }
  else file

variable (t : Tid)

/-- `file_release`, up to the release of `file_table.lock`: `file_close` with `access` and `file_unhold`
    without. -/
def fileRelease (reference : Reference) : Files Tid Pid Pipe Other Private :=
  let file := s.file reference.file
  if file.ref < 1 then { s with panic := some .fileClose }
  else if reference.access && file.inodeAccess && file.accessRef = 0 then
    { s with panic := some .fileAccessReference }
  else
    let file := releaseAccess file reference.access
    if file.ref - 1 ≠ 0 then s.setFile reference.file { file with ref := file.ref - 1 }
    else if file.accessRef ≠ 0 || file.inodeAccess then { s with panic := some .releaseAccessedFile }
    else
      { s.setFile reference.file VfsFile.free with
        released := update s.released t (some { file with ref := 0 }) }

/-! ## `pipe.c` -/

/-- The first half of `pipe_release`, for the reading end. -/
def pipeReleaseReader (pipe : Pipe) : Files Tid Pid Pipe Other Private :=
  if (s.pipe pipe).readers = 0 then { s with panic := some .pipeReaderUnderflow }
  else
    { s with
      pipe := update s.pipe pipe { s.pipe pipe with readers := (s.pipe pipe).readers - 1 }
      waits := (waitQueueWakeAll s.waits (.inl (.writeWait pipe))).1 }

/-- The second half, for the writing end. -/
def pipeReleaseWriter (pipe : Pipe) : Files Tid Pid Pipe Other Private :=
  if (s.pipe pipe).writers = 0 then { s with panic := some .pipeWriterUnderflow }
  else
    { s with
      pipe := update s.pipe pipe { s.pipe pipe with writers := (s.pipe pipe).writers - 1 }
      waits := (waitQueueWakeAll s.waits (.inl (.readWait pipe))).1 }

/-- `pipe_release`. -/
def pipeRelease (file : VfsFile Pipe) : Files Tid Pid Pipe Other Private :=
  match file.pipe with
  | none => s
  | some pipe =>
    let s := if file.openRead then pipeReleaseReader s pipe else s
    let s := if file.openWrite then pipeReleaseWriter s pipe else s
    if (s.pipe pipe).readers = 0 && (s.pipe pipe).writers = 0 &&
        !((s.waits.waiters (.inl (.readWait pipe))).isEmpty && (s.waits.waiters (.inl (.writeWait pipe))).isEmpty)
    then { s with panic := some .releasePipeWithWaiters }
    else s

/-- The end of `file_release`, without the locks: `operations->release(&released)`. -/
def fileReleaseEnd : Files Tid Pid Pipe Other Private :=
  match s.released t with
  | none => s
  | some file => pipeRelease { s with released := update s.released t none } file

/-- How a thread goes on. -/
inductive Progress
  | goesOn
  | returns (result : Int)
  | exits
deriving DecidableEq

/-- The thread leaves its sleep for `process_thread_exit`, and its variables for good. -/
def leaveForExit : Files Tid Pid Pipe Other Private :=
  { s with
    locals := update s.locals t []
    draft := update s.draft t Draft.none
    released := update s.released t none
    call := update s.call t none
    exiting := update s.exiting t true }

/-- The call is over. -/
def callReturns : Files Tid Pid Pipe Other Private :=
  { s with call := update s.call t none }

/-- `wait_queue_sleep_interruptible` in the loops of a pipe. -/
def pipeSleep (queue : PipeQueue Pipe) (interrupted : Int) (pending : Bool) (between : Between) :
    Files Tid Pid Pipe Other Private × Progress :=
  match waitQueueSleep s.waits t (.inl queue) true .sleepInterruptible pending between with
  | (waits, .blocks) => ({ s with waits := waits }, .goesOn)
  | (waits, .exits) => (leaveForExit { s with waits := waits } t, .exits)
  | (waits, .returns result) =>
    if result = waitQueueInterrupted then (callReturns { s with waits := waits } t, .returns interrupted)
    else ({ s with waits := waits }, .goesOn)

/-- The loop of `pipe_readv`: one look at the pipe. -/
def pipeReadLoop (file : FileId) (requested : Nat) (nonblock pending : Bool) (between : Between) :
    Files Tid Pid Pipe Other Private × Progress :=
  match (s.file file).pipe with
  | none => (callReturns s t, .returns vfsErrBadf)
  | some pipe =>
    let state := s.pipe pipe
    if state.used = 0 || state.readBusy then
      if state.used = 0 && state.writers = 0 && !state.readBusy then (callReturns s t, .returns 0)
      else if nonblock then (callReturns s t, .returns vfsErrAgain)
      else pipeSleep s t (.readWait pipe) vfsErrIntr pending between
    else
      ({ s with
        pipe := update s.pipe pipe { state with readBusy := true }
        call := update s.call t (some (.copying file (min state.used requested))) }, .goesOn)

/-- The end of `pipe_readv`, with `total` bytes copied. -/
def pipeReadEnd (file : FileId) (total : Nat) : Files Tid Pid Pipe Other Private × Progress :=
  match (s.file file).pipe with
  | none => (callReturns s t, .returns vfsErrBadf)
  | some pipe =>
    let waits := (waitQueueWakeAll s.waits (.inl (.readWait pipe))).1
    ({ callReturns s t with
      pipe := update s.pipe pipe { s.pipe pipe with used := (s.pipe pipe).used - total, readBusy := false }
      waits := if total = 0 then waits else (waitQueueWakeAll waits (.inl (.writeWait pipe))).1 },
      .returns total)

/-- The loop of `pipe_write_staged`: one look at the pipe. -/
def pipeWriteLoop (file : FileId) (count total : Nat) (atomic nonblock pending : Bool) (between : Between) :
    Files Tid Pid Pipe Other Private × Progress :=
  match (s.file file).pipe with
  | none => (callReturns s t, .returns vfsErrBadf)
  | some pipe =>
    let state := s.pipe pipe
    let available := pipeCapacity - state.used
    let sofar (error : Int) : Int := if total ≠ 0 then total else error
    if total ≥ count then (callReturns s t, .returns total)
    else if state.readers = 0 then (callReturns s t, .returns (sofar vfsErrPipe))
    else if (atomic && available < count) || available = 0 then
      if nonblock then (callReturns s t, .returns (sofar vfsErrAgain))
      else pipeSleep s t (.writeWait pipe) (sofar vfsErrIntr) pending between
    else
      let chunk := min (count - total) available
      ({ s with
        pipe := update s.pipe pipe { state with used := state.used + chunk }
        waits := (waitQueueWakeAll s.waits (.inl (.readWait pipe))).1
        call := update s.call t (some (.writing file count (total + chunk) atomic nonblock)) }, .goesOn)

/-- A thread is back from `sched()`. In the loops of a pipe a signal ends the call. -/
def sleepReturns : Files Tid Pid Pipe Other Private × Progress :=
  match waitQueueResume s.waits t with
  | (waits, .blocks) => ({ s with waits := waits }, .goesOn)
  | (waits, .exits) => (leaveForExit { s with waits := waits } t, .exits)
  | (waits, .returns result) =>
    match s.call t with
    | some (.reading _ _ _) =>
      if result = waitQueueInterrupted then (callReturns { s with waits := waits } t, .returns vfsErrIntr)
      else ({ s with waits := waits }, .goesOn)
    | some (.writing _ _ total _ _) =>
      if result = waitQueueInterrupted then
        (callReturns { s with waits := waits } t, .returns (if total ≠ 0 then total else vfsErrIntr))
      else ({ s with waits := waits }, .goesOn)
    | _ => ({ s with waits := waits }, .goesOn)

/-! ## `vfs.c` and `process.c` -/

/-- A local variable for a reference, or none any more. -/
def Files.keep (reference : Reference) : Files Tid Pid Pipe Other Private :=
  { s with locals := update s.locals t (reference :: s.locals t) }

def Files.drop (reference : Reference) : Files Tid Pid Pipe Other Private :=
  { s with locals := update s.locals t ((s.locals t).erase reference) }

variable (p : Pid)

def Files.setSlot (fd : Fd) (file : Option FileId) (flag : Bool) : Files Tid Pid Pipe Other Private :=
  { s with
    slots := update s.slots p (update (s.slots p) fd file)
    closeOnExec := update s.closeOnExec p (update (s.closeOnExec p) fd flag) }

def Files.setAreas (areas : List Reference) :
    Files Tid Pid Pipe Other Private := { s with areas := update s.areas p areas }

def Files.setDraft (draft : Draft) :
    Files Tid Pid Pipe Other Private := { s with draft := update s.draft t draft }

/-- `file_alloc` in `vfs_open_file`, with what is written to the file before anybody else sees it. -/
def openFile (inodeAccess openRead openWrite : Bool) : Files Tid Pid Pipe Other Private :=
  match fileAlloc s with
  | none => s
  | some f =>
    (s.setFile f ⟨1, if inodeAccess then 1 else 0, inodeAccess, openRead, openWrite, none⟩).keep t ⟨f, true⟩

/-- `vfs_pipe`, up to `vfs_install_file`. -/
def vfsPipe (pipe : Pipe) : Files Tid Pid Pipe Other Private :=
  match fileAlloc s with
  | none => s
  | some readFile =>
    let s' := (s.setFile readFile ⟨1, 0, false, true, false, some pipe⟩).keep t ⟨readFile, true⟩
    match fileAlloc s' with
    | none => s
    | some writeFile =>
      { (s'.setFile writeFile ⟨1, 0, false, false, true, some pipe⟩).keep t ⟨writeFile, true⟩ with
        pipe := update s.pipe pipe ⟨1, 1, 0, false⟩ }

/-- The first free descriptor from `minimum` on. -/
def freeFd (slots : Fd → Option FileId) (minimum : Nat) : Option Fd :=
  (List.finRange nofile).find? fun fd => minimum ≤ fd.val && slots fd = none

/-- `fd_alloc`. -/
def fdAlloc (f : FileId) (minimum : Nat) (flag : Bool) : Files Tid Pid Pipe Other Private :=
  match freeFd (s.slots p) minimum with
  | none => s
  | some fd => (s.drop t ⟨f, true⟩).setSlot p fd (some f) flag

/-- `fd_get`. -/
def fdGet (fd : Fd) : Files Tid Pid Pipe Other Private :=
  match s.slots p fd with
  | none => s
  | some f => (fileDup s f).keep t ⟨f, true⟩

/-- `vfs_close`, up to `file_close`. -/
def vfsClose (fd : Fd) : Files Tid Pid Pipe Other Private :=
  match s.slots p fd with
  | none => s
  | some f => (s.setSlot p fd none false).keep t ⟨f, true⟩

/-- `vfs_dup`. -/
def vfsDup (oldfd : Fd) (minimum : Nat) (flag : Bool) : Files Tid Pid Pipe Other Private :=
  match s.slots p oldfd with
  | none => s
  | some f =>
    match freeFd (s.slots p) minimum with
    | none => s
    | some fd => (fileDup s f).setSlot p fd (some f) flag

/-- `vfs_dup_to`, up to `file_close`. -/
def vfsDupTo (oldfd newfd : Fd) (flag : Bool) : Files Tid Pid Pipe Other Private :=
  if oldfd = newfd then s
  else
    match s.slots p oldfd with
    | none => s
    | some f =>
      let s' := (fileDup s f).setSlot p newfd (some f) flag
      match s.slots p newfd with
      | none => s'
      | some replaced => s'.keep t ⟨replaced, true⟩

/-- Take some descriptors out of the table, as `vfs_close_on_exec` and `process_release_resources` do. -/
def takeSlots (which : Fd → Bool) : Files Tid Pid Pipe Other Private :=
  (List.finRange nofile).foldl (fun s fd => if which fd then vfsClose s t p fd else s) s

/-- `vfs_close_on_exec`, up to `file_close`. -/
def vfsCloseOnExec : Files Tid Pid Pipe Other Private :=
  takeSlots s t p (s.closeOnExec p)

/-- The files of `process_release_resources`, up to `file_close`. -/
def releaseSlots : Files Tid Pid Pipe Other Private :=
  takeSlots s t p fun _ => true

/-- The loop over the descriptors in `process_fork_common`. -/
def forkSlots : Files Tid Pid Pipe Other Private :=
  (List.finRange nofile).foldl (fun s fd =>
    match s.slots p fd with
    | none => s
    | some f =>
      let s := fileDup s f
      s.setDraft t { s.draft t with slots := update (s.draft t).slots fd (some f) })
    s

/-- The references of a descriptor table. -/
def tableReferences (slots : Fd → Option FileId) : List Reference :=
  (List.finRange nofile).filterMap fun fd => (slots fd).map fun f => ⟨f, true⟩

/-- What a thread has. -/
def Files.inHand : List Reference :=
  s.locals t ++ (s.draft t).areas ++ tableReferences (s.draft t).slots

/-- The reference `vma_allocate` takes for an area with a file: of the ELF image it is a hold. -/
def vmaReference (reference : Reference) (elf : Bool) : Files Tid Pid Pipe Other Private × Reference :=
  if elf then (fileHold s reference.file, ⟨reference.file, false⟩)
  else (fileDup s reference.file, ⟨reference.file, true⟩)

/-! ## Steps -/

/-- What can happen. The references a thread copies are its own or those of its process. -/
inductive FileAction (Tid Pid Pipe Other Private : Type)
  | openFile (t : Tid) (inodeAccess openRead openWrite : Bool)
  | pipe (t : Tid) (pipe : Pipe)
  | fdAlloc (t : Tid) (file : FileId) (minimum : Nat) (flag : Bool)
  | fdGet (t : Tid) (fd : Fd)
  | close (t : Tid) (fd : Fd)
  | dup (t : Tid) (oldfd : Fd) (minimum : Nat) (flag : Bool)
  | dupTo (t : Tid) (oldfd newfd : Fd) (flag : Bool)
  | closeOnExec (t : Tid)
  /-- `file_close` or `file_unhold` of a variable -/
  | release (t : Tid) (reference : Reference)
  | releaseEnd (t : Tid)
  /-- `vma_allocate` in the address space, for a file from a variable or another area -/
  | areaAlloc (t : Tid) (reference : Reference) (elf : Bool)
  /-- `vma_release`, up to the release of the file -/
  | areaFree (t : Tid) (reference : Reference)
  /-- `vma_allocate` in an address space that is being made -/
  | draftAlloc (t : Tid) (reference : Reference) (elf : Bool)
  | draftFree (t : Tid) (reference : Reference)
  /-- `entry->file = vfs_file_hold(file)` of the page cache, and `page_cache_release` -/
  | cacheAdd (t : Tid) (reference : Reference)
  | cacheFree (t : Tid) (reference : Reference)
  /-- the new address space becomes that of the process, the old one is to be destroyed -/
  | execCommit (t : Tid)
  | forkSlots (t : Tid)
  /-- the new process starts, with the thread `u` -/
  | forkCommit (t : Tid) (p : Pid) (u : Tid)
  /-- `process_alloc`, and `thread_alloc` in it -/
  | processAlloc (p : Pid) (u : Tid)
  /-- `thread_alloc` for another thread of a process -/
  | threadAlloc (p : Pid) (u : Tid)
  | threadFree (u : Tid)
  | read (t : Tid) (file : FileId) (requested : Nat) (nonblock : Bool)
  | readLoop (t : Tid) (pending : Bool) (between : Between)
  | readEnd (t : Tid) (total : Nat)
  | write (t : Tid) (file : FileId) (count : Nat) (atomic nonblock : Bool)
  | writeLoop (t : Tid) (pending : Bool) (between : Between)
  /-- a sleep outside the loops of a pipe -/
  | sleep (t : Tid) (queue : Other) (call : SleepCall) (pending : Bool) (between : Between)
  | resume (t : Tid)
  /-- `process_thread_exit`, called with nothing in hand -/
  | beginExit (t : Tid)
  /-- `process_thread_exit` under the lock of the process -/
  | detach (t : Tid)
  | releaseSlots (t : Tid)
  | exit (t : Tid)
  | elsewhere (a : Action Tid Other Private)

/-- The thread is in the loop of a pipe, with its lock. -/
def Files.inLoop : Bool :=
  match s.call t with
  | some (.reading _ _ _) | some (.writing _ _ _ _ _) => true
  | _ => false

/-- The process a thread can do something for, if it runs. After it has left `live_threads` only the last thread
    does anything but exit. -/
def Files.acts : Option Pid :=
  if s.waits.runs t && !s.inLoop t && (!s.detached t || s.last t) then s.home t else none

/-- The thread does not use this reference in a call. -/
def Files.unused (reference : Reference) : Bool :=
  match s.call t with
  | none => true
  | some call => reference ≠ ⟨call.file, true⟩

/-- The process has no descriptors and no areas with files. -/
def Files.bare : Bool :=
  (tableReferences (s.slots p)).isEmpty && (s.areas p).isEmpty

/-- The thread has nothing in hand. -/
def Files.empty : Bool :=
  (s.inHand t).isEmpty && s.released t = none && s.call t = none

/-- A new thread of a process. -/
def Files.addThread (u : Tid) : Files Tid Pid Pipe Other Private :=
  { s with
    waits := Sched.threadAlloc s.waits u
    home := update s.home u (some p)
    liveThreads := update s.liveThreads p (s.liveThreads p + 1)
    alive := update s.alive p true
    exiting := update s.exiting u false
    detached := update s.detached u false
    last := update s.last u false }

/-- `thread_free`. -/
def threadFree (u : Tid) : Files Tid Pid Pipe Other Private :=
  let left := if (s.waits.thread u).state = .exited then s.liveThreads p else s.liveThreads p - 1
  { s with
    waits := Sched.threadFree s.waits u
    home := update s.home u none
    liveThreads := update s.liveThreads p left
    alive := if (s.waits.thread u).state = .exited then s.alive else update s.alive p (left ≠ 0) }

/-- `process_thread_exit` under the lock of the process. -/
def detach : Files Tid Pid Pipe Other Private :=
  if s.liveThreads p = 0 then { s with panic := some .invalidUserThreadExit }
  else
    { s with
      waits := clearExitRequest s.waits t
      liveThreads := update s.liveThreads p (s.liveThreads p - 1)
      detached := update s.detached t true
      last := update s.last t (s.liveThreads p - 1 = 0) }

/-- One step of a thread for its process. -/
def Files.act :
    FileAction Tid Pid Pipe Other Private → Files Tid Pid Pipe Other Private
  | .openFile _ inodeAccess openRead openWrite => openFile s t inodeAccess openRead openWrite
  | .pipe _ pipe => if (s.pipe pipe).readers = 0 && (s.pipe pipe).writers = 0 then vfsPipe s t pipe else s
  | .fdAlloc _ f minimum flag =>
    if ⟨f, true⟩ ∈ s.locals t && s.unused t ⟨f, true⟩ then fdAlloc s t p f minimum flag else s
  | .fdGet _ fd => fdGet s t p fd
  | .close _ fd => vfsClose s t p fd
  | .dup _ oldfd minimum flag => vfsDup s p oldfd minimum flag
  | .dupTo _ oldfd newfd flag => vfsDupTo s t p oldfd newfd flag
  | .closeOnExec _ => vfsCloseOnExec s t p
  | .release _ reference =>
    if reference ∈ s.locals t && s.unused t reference && s.released t = none then
      fileRelease (s.drop t reference) t reference
    else s
  | .releaseEnd _ => fileReleaseEnd s t
  | .areaAlloc _ reference elf =>
    if reference ∈ s.locals t ++ s.areas p && (elf || reference.access) then
      let (s, new) := vmaReference s reference elf
      s.setAreas p (new :: s.areas p)
    else s
  | .areaFree _ reference =>
    if reference ∈ s.areas p then
      (s.setAreas p ((s.areas p).erase reference)).keep t reference
    else s
  | .draftAlloc _ reference elf =>
    if reference ∈ s.locals t ++ s.areas p ++ (s.draft t).areas && (elf || reference.access) then
      let (s, new) := vmaReference s reference elf
      s.setDraft t { s.draft t with areas := new :: (s.draft t).areas }
    else s
  | .draftFree _ reference =>
    if reference ∈ (s.draft t).areas then
      (s.setDraft t { s.draft t with areas := (s.draft t).areas.erase reference }).keep t reference
    else s
  | .cacheAdd _ reference =>
    if reference ∈ s.locals t ++ s.areas p && (s.file reference.file).pipe = none then
      let s := fileHold s reference.file
      { s with cache := ⟨reference.file, false⟩ :: s.cache }
    else s
  | .cacheFree _ reference =>
    if reference ∈ s.cache then { s with cache := s.cache.erase reference }.keep t reference else s
  | .execCommit _ =>
    (s.setAreas p (s.draft t).areas).setDraft t { s.draft t with areas := s.areas p }
  | .forkSlots _ => if (tableReferences (s.draft t).slots).isEmpty then forkSlots s t p else s
  | .forkCommit _ q u =>
    if s.alive q && s.bare q && s.home u = some q && (s.waits.thread u).state = .allocated then
      { s with
        slots := update s.slots q (s.draft t).slots
        closeOnExec := update s.closeOnExec q (s.closeOnExec p)
        areas := update s.areas q (s.draft t).areas
        draft := update s.draft t Draft.none
        waits := threadStart s.waits u }
    else s
  | .read _ f requested nonblock =>
    if s.call t = none && ⟨f, true⟩ ∈ s.locals t && (s.file f).openRead && (s.file f).pipe.isSome then
      { s with call := update s.call t (some (.reading f requested nonblock)) }
    else s
  | .write _ f count atomic nonblock =>
    if s.call t = none && ⟨f, true⟩ ∈ s.locals t && (s.file f).openWrite && (s.file f).pipe.isSome then
      { s with call := update s.call t (some (.writing f count 0 atomic nonblock)) }
    else s
  | .beginExit _ => if s.empty t then { s with exiting := update s.exiting t true } else s
  | .detach _ => if s.exiting t && !s.detached t then detach s t p else s
  | .releaseSlots _ => if s.last t then releaseSlots s t p else s
  | _ => s

/-- The thread that does it, for the actions of `act`. -/
def FileAction.actor : FileAction Tid Pid Pipe Other Private → Option Tid
  | .openFile t _ _ _ | .pipe t _ | .fdAlloc t _ _ _ | .fdGet t _ | .close t _ | .dup t _ _ _ | .dupTo t _ _ _
  | .closeOnExec t | .release t _ | .releaseEnd t | .areaAlloc t _ _ | .areaFree t _ | .draftAlloc t _ _
  | .draftFree t _ | .cacheAdd t _ | .cacheFree t _ | .execCommit t | .forkSlots t | .forkCommit t _ _
  | .read t _ _ _ | .write t _ _ _ _ | .beginExit t | .detach t | .releaseSlots t => some t
  | _ => none

/-- One step, and the thread that goes to `process_thread_exit` from inside a sleep in it, if one does. -/
def Files.perform (a : FileAction Tid Pid Pipe Other Private) : Files Tid Pid Pipe Other Private × Option Tid :=
  match a with
  | .processAlloc p u =>
    if !s.alive p && (s.waits.thread u).state = .unused then (s.addThread p u, none) else (s, none)
  | .threadAlloc p u =>
    if s.liveThreads p ≠ 0 && (s.waits.thread u).state = .unused then (s.addThread p u, none) else (s, none)
  | .threadFree u =>
    match s.home u with
    | none => (s, none)
    | some p =>
      if (s.waits.thread u).state = .exited ||
          ((s.waits.thread u).state = .allocated && (2 ≤ s.liveThreads p || s.bare p)) then
        (threadFree s p u, none)
      else (s, none)
  | .readLoop t pending between =>
    match s.call t with
    | some (.reading f requested nonblock) =>
      if s.waits.runs t then
        let (s, progress) := pipeReadLoop s t f requested nonblock pending between
        (s, if progress = .exits then some t else none)
      else (s, none)
    | _ => (s, none)
  | .readEnd t total =>
    match s.call t with
    | some (.copying f available) =>
      if s.waits.runs t && total ≤ available then ((pipeReadEnd s t f total).1, none) else (s, none)
    | _ => (s, none)
  | .writeLoop t pending between =>
    match s.call t with
    | some (.writing f count total atomic nonblock) =>
      if s.waits.runs t then
        let (s, progress) := pipeWriteLoop s t f count total atomic nonblock pending between
        (s, if progress = .exits then some t else none)
      else (s, none)
    | _ => (s, none)
  | .sleep t queue call pending between =>
    if s.waits.runs t && !s.inLoop t then
      match waitQueueSleep s.waits t (.inr queue) true call pending between with
      | (waits, .exits) => (leaveForExit { s with waits := waits } t, some t)
      | (waits, _) => ({ s with waits := waits }, none)
    else (s, none)
  | .resume t =>
    if s.waits.returns t then
      let (s, progress) := sleepReturns s t
      (s, if progress = .exits then some t else none)
    else (s, none)
  | .exit t =>
    if s.waits.runs t && s.exiting t && s.detached t && s.empty t then
      match s.home t with
      | none => (s, none)
      | some p =>
        if !s.last t || s.bare p then
          ({ s with
            waits := schedulerExit s.waits t
            alive := if s.last t then update s.alive p false else s.alive }, none)
        else (s, none)
    else (s, none)
  | .elsewhere a =>
    match a.elsewhere with
    | none => (s, none)
    | some a =>
      match a with
      | .alloc t | .free t => if s.home t = none then ({ s with waits := s.waits.step a }, none) else (s, none)
      | a => ({ s with waits := s.waits.step a }, none)
  | a =>
    match a.actor with
    | none => (s, none)
    | some t =>
      match s.acts t with
      | none => (s, none)
      | some p => (s.act t p a, none)

def Files.step (a : FileAction Tid Pid Pipe Other Private) : Files Tid Pid Pipe Other Private := (s.perform a).1

/-- Nobody leaves a sleep for `process_thread_exit` while it has references to files, or has not finished
    releasing one. -/
def ExitsEmptyHanded (a : FileAction Tid Pid Pipe Other Private) : Prop :=
  match (s.perform a).2 with
  | none => True
  | some t => s.inHand t = [] ∧ s.released t = none

instance (s : Files Tid Pid Pipe Other Private) (a : FileAction Tid Pid Pipe Other Private) :
    Decidable (ExitsEmptyHanded s a) :=
  decidable_of_iff (∀ t ∈ (s.perform a).2, s.inHand t = [] ∧ s.released t = none) (by
    unfold ExitsEmptyHanded
    cases (s.perform a).2 <;> simp)

end Caffeinix.Fs
