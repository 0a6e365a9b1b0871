import Caffeinix.Mm.Mmap

/-!
# `Mm.Step` — reading and writing files (`fs/vfs.c`), and the steps of the machine

The calls on a file that go past the page cache, and then all steps: a call of some process, a store of a user
program through its page table, a pass of reclaim or write-back. A run is a list of steps, in any order and by
any processes; once the kernel has stopped, nothing happens any more.
-/

namespace Caffeinix.Mm

open Vma Function

variable {Proc : Type} [DecidableEq Proc]

/-! ## Files -/

/-- The errors of `vfs.h` that occur here. -/
def vfsErrIo : Int := -3

@[inherit_doc vfsErrIo] def vfsErrBadf : Int := -4

@[inherit_doc vfsErrIo] def vfsErrInval : Int := -8

@[inherit_doc vfsErrIo] def vfsErrNospc : Int := -10

@[inherit_doc vfsErrIo] def vfsErrNomem : Int := -13

/-- `VFS_MAX_FILE_OFFSET`. -/
def vfsMaxFileOffset : Nat := 2 ^ 63 - 1

variable (s : Machine Proc)

variable (file : VfsFile)

/-- `vfs_file_pread`, and `vfs_read` at that position: the cached pages of the file are written back first. -/
def vfsFilePread (count offset : Nat) : Machine Proc × Except Int (List UInt8) :=
  if !s.canRead file then (s, .error vfsErrBadf)
  else
    let r := pageCacheWritebackInode s file.inode
    if !r.2 then (r.1, .error vfsErrIo)
    else
      let f := r.1.files file.inode
      (r.1, .ok ((List.range (min count (f.size - offset))).map fun i => f.data (offset + i)))

/-- `file_write`: the file system stores the first `room` bytes at most. If it is `either_copyin` that fails then,
    `copied` is how far it has got. -/
def fileWrite (bytes : List UInt8) (position room : Nat) (copied : Option Nat) : Machine Proc × Int :=
  if !s.canWrite file then (s, vfsErrBadf)
  else if bytes.length > uint64Max - position then (s, vfsErrInval)
  else
    let count := min bytes.length room
    ({ s with
      files := update s.files file.inode
        ((s.files file.inode).write position count (min (copied.getD 0) (bytes.length - count)) fun i =>
          bytes.getD i 0) },
      if count = 0 && bytes ≠ [] then if copied.isSome then vfsErrIo else vfsErrNomem else count)

/-- `file_write`, and `page_cache_refresh` if anything was written. -/
def writeRefresh (bytes : List UInt8) (position room : Nat) (copied : Option Nat) (oldSize : Nat) :
    Machine Proc × Int :=
  let r := fileWrite s file bytes position room copied
  (if r.2 > 0 then pageCacheRefresh r.1 file position r.2.toNat oldSize else r.1, r.2)

/-- `vfs_prepare_positioned_write`: where a write goes. -/
def writePosition (append : Bool) (position : Nat) : Nat :=
  if append then (s.files file.inode).size else position

/-- `vfs_file_pwrite`, and `vfs_file_write_current` at the position of the file, which differs in the limits
    (`limit` is 0x7fffffff bytes there) only. -/
def vfsFilePwrite (append : Bool) (bytes : List UInt8) (position room : Nat) (copied : Option Nat)
    (current : Bool) : Machine Proc × Int :=
  let position := writePosition s file append position
  if !s.canWrite file then (s, vfsErrBadf)
  else if current && bytes.length > 0x7fffffff then (s, vfsErrInval)
  else if !current && (bytes.length > vfsMaxFileOffset || position > vfsMaxFileOffset - bytes.length) then
    (s, vfsErrInval)
  else
    -- `vfs_inode_remove_privileges`
    let privileges := if bytes = [] then (s, true) else outcome s
    if !privileges.2 then (privileges.1, vfsErrIo)
    else writeRefresh privileges.1 file bytes position room copied (s.files file.inode).size

/-- The loop of `vfs_writev` and `vfs_file_pwritev`. -/
def writevLoop (s : Machine Proc) (file : VfsFile) (position room : Nat) (copied : Option Nat)
    (oldSize total : Nat) : List (List UInt8) → Machine Proc × Int
  | [] => (s, total)
  | bytes :: rest =>
    let r := writeRefresh s file bytes position room copied oldSize
    if r.2 < 0 then (r.1, if total ≠ 0 then total else r.2)
    else
      let count := r.2.toNat
      if count ≠ bytes.length then (r.1, (total + count : Nat))
      else
        writevLoop r.1 file (position + count) (room - count) copied (max oldSize (position + count))
          (total + count) rest

/-- `vfs_writev` at the position of the file, and `vfs_file_pwritev`. -/
def vfsWritev (append : Bool) (iovecs : List (List UInt8)) (position room : Nat) (copied : Option Nat)
    (current : Bool) : Machine Proc × Int :=
  let position := writePosition s file append position
  let length := (iovecs.map List.length).sum
  if !s.canWrite file then (s, vfsErrBadf)
  else if current && iovecs.any (fun bytes => bytes.length > 0x7fffffff) then (s, vfsErrInval)
  else if !current && (length > vfsMaxFileOffset || position > vfsMaxFileOffset - length) then
    (s, vfsErrInval)
  else
    let privileges := if iovecs.all (· = []) then (s, true) else outcome s
    if !privileges.2 then (privileges.1, vfsErrIo)
    else writevLoop privileges.1 file position room copied (s.files file.inode).size 0 iovecs

/-- `vfs_truncate_inode`, for a size that the system call lets through; nothing while it has to wait. -/
def vfsTruncateInode (inode size : Nat) : Option (Machine Proc × Int) :=
  if size > vfsMaxFileOffset then some (s, -linuxEinval)
  else
    let oldSize := (s.files inode).size
    let r := pageCacheWritebackInode s inode
    if !r.2 then some (r.1, vfsErrIo)
    else
      let privileges := if oldSize = size then (r.1, true) else outcome r.1
      if !privileges.2 then some (privileges.1, vfsErrIo)
      else
        let s := privileges.1
        (mmapFileTruncate
          { s with files := update s.files inode ((s.files inode).truncate size) }
          inode oldSize size).map fun s => (s, 0)

/-- `vfs_fallocate`, for a range that the system call lets through. -/
def vfsFallocate (offset length : Nat) : Machine Proc × Int :=
  if length = 0 || length > vfsMaxFileOffset || offset > vfsMaxFileOffset - length then (s, -linuxEinval)
  else if !s.canWrite file then (s, vfsErrBadf)
  else
    let r := pageCacheWritebackInode s file.inode
    if !r.2 then (r.1, vfsErrIo)
    else
      let privileges := outcome r.1
      if !privileges.2 then (privileges.1, vfsErrIo)
      else
        -- the pages that `tmpfs_fallocate` adds to the file
        let pages := outcome privileges.1
        if !pages.2 then (pages.1, vfsErrNospc)
        else
          let s := pages.1
          ({ s with
            files := update s.files file.inode ((s.files file.inode).fallocate offset length) }, 0)

/-! ## Steps -/

/-- A store instruction of a user program; one that the leaf does not allow is a page fault, which is a step of
    its own. -/
def userStore (proc : Proc) (va : Nat) (byte : UInt8) : Machine Proc :=
  match s.findPte proc (pgrounddown va) with
  | none => s
  | some pte =>
    if !pte.perm.u || !pte.perm.w then s
    else
      (s.setPte pte { pte with d := true }).setData pte.page
        (update (s.data pte.page) (va % pgsize) byte)

/-- What happens in a step. -/
inductive Action (Proc : Type)
  /-- a new process (`process_alloc`) -/
  | spawn (proc : Proc)
  | fork (old new : Proc) (outcome : Nat → Allocation)
  | exit (proc : Proc)
  | reap (proc : Proc)
  | mmap (proc : Proc) (args : MmapArgs)
  | munmap (proc : Proc) (address length : Nat) (outcome : Allocation)
  | mprotect (proc : Proc) (address length protection : Nat) (startOutcome endOutcome : Allocation)
  | msync (proc : Proc) (address length flags : Nat)
  | brk (proc : Proc) (brk brkStart mmapTop requested : Nat) (outcome : Allocation)
  /-- a segment of a new program -/
  | segment (proc : Proc) (outcome : Allocation) (e : ElfArgs)
  | fault (proc : Proc) (address : Nat) (access : FaultAccess)
  | store (proc : Proc) (va : Nat) (byte : UInt8)
  | pin (proc : Proc) (va : Nat) (write : Bool)
  | unpin (page : Page)
  /-- `page_cache_reclaim` -/
  | reclaim (target : Nat)
  /-- the three parts of a round of `page_cache_reclaim_mapped` -/
  | reclaimSelect
  | reclaimUnmap (inode offset : Nat)
  | reclaimFinish (inode offset : Nat) (blocked : Bool)
  | reclaimAnonymous (proc : Proc) (target : Nat)
  | writebackInode (inode : Nat)
  | writebackSuper (superblock : Nat)
  | evictSuper (superblock : Nat)
  | read (file : VfsFile) (count offset : Nat)
  | write (file : VfsFile) (append : Bool) (bytes : List UInt8) (position room : Nat) (copied : Option Nat)
      (current : Bool)
  | writev (file : VfsFile) (append : Bool) (iovecs : List (List UInt8)) (position room : Nat)
      (copied : Option Nat) (current : Bool)
  | truncate (inode size : Nat)
  | fallocate (file : VfsFile) (offset length : Nat)
  | kernelAlloc
  | kernelFree (page : Page)

/-- The entry that a round of `page_cache_reclaim_mapped` works on: one that is marked. -/
def Machine.selected (inode offset : Nat) : Option CacheEntry :=
  (s.pageCacheFind inode offset).filter CacheEntry.evicting

/-- The machine after an action. -/
def perform : Action Proc → Machine Proc
  | .spawn proc => if s.blank proc then (processPagedir s proc).1 else s
  | .fork old new outcome => (processFork s old new outcome).1
  | .exit proc => processReleaseResources s proc
  | .reap proc => processFree s proc
  | .mmap proc args => (sysLinuxMmap s proc args).1
  | .munmap proc address length outcome => (sysLinuxMunmap s proc address length outcome).1
  | .mprotect proc address length protection startOutcome endOutcome =>
    (sysLinuxMprotect s proc address length protection startOutcome endOutcome).1
  | .msync proc address length flags => (sysLinuxMsync s proc address length flags).1
  | .brk proc brk brkStart mmapTop requested outcome =>
    (sysLinuxBrk s proc brk brkStart mmapTop requested outcome).1
  | .segment proc outcome e => elfImageMap s proc outcome e
  | .fault proc address access => (mmapHandleFault s proc address access).1
  | .store proc va byte => userStore s proc va byte
  | .pin proc va write => userCopyPin s proc va write
  | .unpin page => userCopyUnpin s page
  | .reclaim target => (pageCacheReclaim s target).1
  | .reclaimSelect => pageCacheSelectCleanLocked s
  | .reclaimUnmap inode offset =>
    match s.selected inode offset with
    | none => s
    | some entry => (mmapReclaimFilePage s inode offset entry.page).1
  | .reclaimFinish inode offset blocked =>
    match s.selected inode offset with
    | none => s
    | some entry => pageCacheReclaimFinish s entry blocked
  | .reclaimAnonymous proc target => mmapReclaimAnonymous s proc target
  | .writebackInode inode => (pageCacheWritebackInode s inode).1
  | .writebackSuper superblock => (pageCacheWritebackSuper s superblock).1
  | .evictSuper superblock => (pageCacheEvictSuper s superblock).1
  | .read file count offset => (vfsFilePread s file count offset).1
  | .write file append bytes position room copied current =>
    (vfsFilePwrite s file append bytes position room copied current).1
  | .writev file append iovecs position room copied current =>
    (vfsWritev s file append iovecs position room copied current).1
  | .truncate inode size => ((vfsTruncateInode s inode size).map Prod.fst).getD s
  | .fallocate file offset length => (vfsFallocate s file offset length).1
  | .kernelAlloc => kernelAlloc s
  | .kernelFree page => kernelFree s page

/-- An action with what it meets: what the page allocator returns and which outside calls succeed. -/
structure Step (Proc : Type) where
  action : Action Proc
  supply : List (Option Page)
  outcomes : List Bool

/-- The machine before an action, with what the action will meet. -/
def Machine.meet (step : Step Proc) : Machine Proc :=
  { s with supply := step.supply, outcomes := step.outcomes }

/-- One step; a kernel that has stopped does nothing. -/
def Machine.step (step : Step Proc) : Machine Proc :=
  if s.panic.isSome then s else perform (s.meet step) step.action

/-- The machine with these files and nothing mapped, cached or allocated; the files have nothing behind their
    ends. -/
def Machine.boot (files : Nat → File) (canRead canWrite : VfsFile → Bool) (superblock : Nat → Nat) :
    Machine Proc where
  allocated := fun _ => false
  refs := fun _ => 0
  data := fun _ _ => 0
  supply := []
  outcomes := []
  ptes := []
  tables := []
  sigreturn := fun _ => false
  vmas := ⟨fun _ => 0, fun _ => []⟩
  cache := []
  anon := []
  pins := []
  kernel := []
  files := fun inode => (files inode).clean
  canRead := canRead
  canWrite := canWrite
  superblock := superblock
  panic := none

/-- The machine after a list of steps. -/
def Machine.run (steps : List (Step Proc)) : Machine Proc := steps.foldl Machine.step s

end Caffeinix.Mm
