import Caffeinix.Lib.LockThreads

/-!
# `Locking.Paths` — the lock paths of system calls and page faults

Which locks the kernel takes, and inside which others, in reading and writing files, in truncation, `msync`,
`fork`, page faults, terminal reads and futex calls. A path depends on what the call finds: whether a page of
the user's buffer is there, whether a page of a file is cached, whose references are the last ones, which
processes are registered. These findings are arguments, so a statement for all of them is one for every state
the call can meet, also for states that other threads change in its course.

Not in the paths: spinlocks held over straight code only (`vfs.lock`, `file_table.lock`, the lock inside a
sleeplock), and the mount lock of ext4, which its owner may take again (`ext4fs_lock_mount` counts the depth).
A wait stands for a place where the thread may sleep for something else than one of the locks, such as the disk
requests of an operation; what needs no request goes on at once.
-/

namespace Caffeinix.Locking

open LockPath

/-- The filesystems whose files have pages in the cache. Files of `/proc` can be mapped, too, but are empty. -/
inductive FsKind where
  | tmpfs
  | fatfs
  | ext4
deriving DecidableEq

/-- `struct vfs_super_block`: a mounted filesystem. -/
structure SuperBlock where
  kind : FsKind
  id : Nat
deriving DecidableEq

inductive Lock where
  /-- `tty->lock` -/
  | tty (id : Nat)
  /-- `futex_table.lock` -/
  | futexTable
  /-- `wait_lock` of the processes -/
  | waitLock
  /-- `super->lock` of a tmpfs -/
  | tmpfs (id : Nat)
  /-- `fatfs_port.lock`, one for all FAT filesystems -/
  | fatfs
  /-- `superblock->write_lock`, `attribute_lock` and `atime_lock` -/
  | write (sb : SuperBlock)
  | attribute (sb : SuperBlock)
  | atime (sb : SuperBlock)
  /-- `file->position_lock` -/
  | position (file : Nat)
  /-- `process->mmap_lock` -/
  | mmap (process : Nat)
  /-- `mmap_registry.lock` -/
  | registry
  /-- `page_cache.lock` -/
  | pageCache
  /-- `mapping->lock` of shared anonymous memory -/
  | anon (mapping : Nat)
deriving DecidableEq

/-- The locks that are spinlocks; the others are sleeplocks. -/
def Lock.spin : Lock → Bool
  | .tty _ | .futexTable | .waitLock => true
  | _ => false

/-! ## Filesystems -/

variable (sb : SuperBlock)

/-- An operation of the filesystem that copies nothing to or from a user. -/
def operation : Path Lock :=
  match sb.kind with
  | .tmpfs => .holding (.tmpfs sb.id) .done
  | .fatfs => .holding .fatfs .pause
  | .ext4 => .pause

/-- `inode->operations->getattr`, which is all of `vfs_inode_stat`. -/
def getattr : Path Lock := operation sb

/-- `inode->operations->truncate`. -/
def truncate : Path Lock := operation sb

/-- `inode->operations->setattr`. FAT has none. -/
def setattr : Path Lock := if sb.kind = .fatfs then .done else operation sb

/-- `inode->operations->accessed`. FAT has none. -/
def accessed : Path Lock := if sb.kind = .fatfs then .done else operation sb

/-- `file->operations->release`. tmpfs has none. -/
def release : Path Lock := if sb.kind = .tmpfs then .done else operation sb

/-- `superblock->operations->put_inode`. FAT and ext4 only free memory. -/
def putInode : Path Lock := if sb.kind = .tmpfs then operation sb else .done

/-- `file->operations->read`, with the copies of the chunks: the lock of the filesystem is held over them. -/
def fileRead (copies : List (Path Lock)) : Path Lock :=
  match sb.kind with
  | .tmpfs => .holding (.tmpfs sb.id) (.each id copies)
  | .fatfs => .holding .fatfs (.pause ++ .each (fun copy => .pause ++ copy) copies)
  | .ext4 => .pause ++ .each (fun copy => .pause ++ copy) copies

/-- `file->operations->write`. -/
def fileWrite (copies : List (Path Lock)) : Path Lock :=
  match sb.kind with
  | .tmpfs => .holding (.tmpfs sb.id) (.each id copies)
  | .fatfs => .holding .fatfs (.pause ++ .each (fun copy => copy ++ .pause) copies)
  | .ext4 => .pause ++ .each (fun copy => copy ++ .pause) copies

/-- `vfs_file_pread_raw` and `vfs_file_pwrite_raw` between the file and a kernel page. -/
def vfsFilePreadRaw : Path Lock := fileRead sb [.done]

def vfsFilePwriteRaw : Path Lock := fileWrite sb [.done]

/-- A reference to an open file that is dropped. -/
structure Dropped where
  sb : SuperBlock
  /-- for the last reference: how many inodes go with the path of the file -/
  last : Option Nat
deriving DecidableEq

/-- `file_release`, for `file_close` and `file_unhold`. -/
def fileRelease (d : Dropped) : Path Lock :=
  .whenever (fun inodes => release d.sb ++ .each (fun _ => putInode d.sb) (List.range inodes)) d.last

/-- What `vfs_path_accessed` makes of an access. -/
inductive Accessed where
  /-- the mount does not note accesses, or there was none -/
  | ignored
  /-- `relatime`, and the time on record is recent enough -/
  | recent
  | noted
deriving DecidableEq

def vfsPathAccessed (a : Accessed) : Path Lock :=
  match sb.kind, a with
  | .fatfs, _ => .done
  | _, .ignored => .done
  | _, .recent => .holding (.atime sb) .done
  | _, .noted => .holding (.atime sb) (accessed sb)

/-- What `vfs_inode_remove_privileges` finds. -/
inductive Privileges where
  /-- the caller is the superuser -/
  | superuser
  /-- no set-user-id or set-group-id bit to clear -/
  | kept
  | cleared
deriving DecidableEq

def vfsInodeRemovePrivileges : Privileges → Path Lock
  | .superuser => .done
  | .kept => .holding (.attribute sb) (getattr sb)
  | .cleared => .holding (.attribute sb) (getattr sb ++ setattr sb)

/-! ## The page cache -/

/-- `page_cache_reclaim`, with the entries released. -/
def pageCacheReclaim (victims : List Dropped) : Path Lock := .holding .pageCache (.each fileRelease victims)

/-- What `page_cache_get` finds. -/
inductive CacheGet where
  /-- an entry, for use or being evicted -/
  | found
  /-- none: entries reclaimed for memory, whether the file is read, and entries taken back after it -/
  | missed (victims : List Dropped) (read : Bool) (undone : List Dropped)
deriving DecidableEq

/-- `page_cache_get` with its read-ahead. -/
def pageCacheGet : CacheGet → Path Lock
  | .found => .holding .pageCache .done
  | .missed victims read undone =>
    .holding .pageCache
      (.each fileRelease victims ++ (if read then vfsFilePreadRaw sb else .done) ++ .each fileRelease undone)

/-- `page_cache_mark_dirty`, with the file of the entry if it is replaced. -/
def pageCacheMarkDirty (oldFile : Option Dropped) : Path Lock :=
  .holding .pageCache .done ++ .whenever fileRelease oldFile

def pageCacheMarkExecutable : Path Lock := .holding .pageCache .done

/-- `page_cache_writeback_entry`, with whether there is something to write. -/
def pageCacheWritebackEntry (written : Bool) : Path Lock :=
  getattr sb ++ if written then vfsFilePwriteRaw sb else .done

/-- `page_cache_writeback_locked` for an inode, with its dirty entries. -/
def pageCacheWritebackLocked (entries : List Bool) : Path Lock :=
  .each (pageCacheWritebackEntry sb) entries

/-- `page_cache_writeback_inode`, which is `page_cache_writeback_file` of a regular file. -/
def pageCacheWritebackInode (entries : List Bool) : Path Lock :=
  .holding (.write sb) (.holding .pageCache (pageCacheWritebackLocked sb entries))

/-- `page_cache_writeback_inode_locked`: the caller has the write lock. -/
def pageCacheWritebackInodeLocked (entries : List Bool) : Path Lock :=
  .holding .pageCache (pageCacheWritebackLocked sb entries)

/-- `page_cache_refresh`, with the copies from the user for the entries in the range written: an entry is read
    from the file, and copied from the user where that comes up short. -/
def pageCacheRefresh (copies : List (Path Lock)) : Path Lock :=
  .holding .pageCache (.each (fun copy => vfsFilePreadRaw sb ++ copy) copies)

/-- `page_cache_truncate`, with the entries released; the lock is given up for a `yield` while a page is in
    use. -/
def pageCacheTruncate (released : List Dropped) (later : List (List Dropped)) : Path Lock :=
  .holding .pageCache (.each fileRelease released) ++
    .each (fun l => .pause ++ .holding .pageCache (.each fileRelease l)) later

/-- What `page_cache_reclaim_mapped` does with an entry it selects. -/
structure Evicted where
  /-- the processes visited by the two scans of the registry -/
  scanned : List Nat
  invalidated : List Nat
  released : Option Dropped
deriving DecidableEq

variable (process : Nat)

/-- The visit of a registered process in `mmap_truncate_process` and `mmap_reclaim_file_scan`. -/
def visit : Path Lock := .holding (.mmap process) .done

/-- `mmap_reclaim_file_page`. -/
def mmapReclaimFilePage (e : Evicted) : Path Lock :=
  .holding .registry (.each visit e.scanned ++ .each visit e.invalidated)

/-- `page_cache_reclaim_mapped`, with the selections of an entry; one that finds none is the last. -/
def pageCacheReclaimMapped (selected : List (Option Evicted)) : Path Lock :=
  .holding .pageCache .done ++
    .each (fun entry => .holding .pageCache .done ++
      .whenever (fun e => mmapReclaimFilePage e ++ .holding .pageCache (.whenever fileRelease e.released)) entry)
      selected

/-! ## Page faults -/

/-- What `vfs_file_pread` finds: the dirty entries, and the access if the file is read after all. -/
structure Pread where
  entries : List Bool
  read : Option Accessed
deriving DecidableEq

def vfsFilePread (r : Pread) : Path Lock :=
  pageCacheWritebackInode sb r.entries ++
    .whenever (fun a => vfsFilePreadRaw sb ++ vfsPathAccessed sb a) r.read

/-- How `mmap_file_fault` ends. -/
inductive FileEnding where
  /-- beyond the end of the file or of the data of an ELF segment, or without attributes -/
  | early
  /-- with a page of the cache -/
  | cached (get : CacheGet) (access : Accessed)
  /-- with the cache's refusal -/
  | refused (get : CacheGet)
  /-- with a page of its own, for a private area the cache could not or was not to serve; memory may have to be
      reclaimed for it, and may not be found -/
  | copied (get : Option CacheGet) (victims : Option (List Dropped)) (read : Option Pread)
deriving DecidableEq

structure FileFault where
  /-- where the file of the area is -/
  sb : SuperBlock
  /-- `area->usage == VMA_ELF` -/
  elf : Bool
  ending : FileEnding
deriving DecidableEq

def mmapFileFault (f : FileFault) : Path Lock :=
  (if f.elf then .done else getattr f.sb) ++
    match f.ending with
    | .early => .done
    | .cached get access => pageCacheGet f.sb get ++ vfsPathAccessed f.sb access
    | .refused get => pageCacheGet f.sb get
    | .copied get victims read =>
      .whenever (pageCacheGet f.sb) get ++ .whenever pageCacheReclaim victims ++
        .whenever (vfsFilePread f.sb) read

/-- `process_snapshot_pid`, with what `mmap_process_usage` finds of a process that is there: whether it is
    registered. -/
def processSnapshotPid (usage : Option (Option Nat)) : Path Lock :=
  .holding .waitLock .done ++ .whenever (fun registered => .holding .registry (.whenever visit registered)) usage

/-- What `vfs_file_mark_shared_dirty` finds; the entry is not marked when privileges cannot be removed. -/
structure SharedDirty where
  privileges : Privileges
  marked : Option (Option Dropped)
deriving DecidableEq

def vfsFileMarkSharedDirty (d : SharedDirty) : Path Lock :=
  vfsInodeRemovePrivileges sb d.privileges ++ .whenever pageCacheMarkDirty d.marked

/-- What the body of `mmap_handle_fault` finds under the lock of the process. -/
inductive Attempt where
  /-- no area, no permission, an entry of the page table that suits, a copy on write, or a file of `/proc` that is
      about no process -/
  | settled
  /-- a file of `/proc` about a process: asking for its size is `procfs_getattr`, and then it has no page -/
  | procfs (usage : Option (Option Nat))
  /-- the first write to a present page of a shared file -/
  | dirtied (sb : SuperBlock) (dirty : SharedDirty)
  | file (fault : FileFault) (executable : Bool) (dirty : Option SharedDirty)
  /-- shared anonymous memory: the mapping, and what is reclaimed for it -/
  | backing (mapping : Nat) (victims : Option (List Dropped))
  | zero (victims : Option (List Dropped))
deriving DecidableEq

def Attempt.path : Attempt → Path Lock
  | .settled => .done
  | .procfs usage => processSnapshotPid usage
  | .dirtied sb dirty => vfsFileMarkSharedDirty sb dirty
  | .file fault executable dirty =>
    mmapFileFault fault ++ (if executable then pageCacheMarkExecutable else .done) ++
      .whenever (vfsFileMarkSharedDirty fault.sb) dirty
  | .backing mapping victims => .holding (.anon mapping) (.whenever pageCacheReclaim victims)
  | .zero victims => .whenever pageCacheReclaim victims

/-- `mmap_reclaim_clean_pages`: the cache, and the clean pages of the process if it has one thread. -/
structure ReclaimClean where
  selected : List (Option Evicted)
  anonymous : Bool
deriving DecidableEq

def mmapReclaimCleanPages (r : ReclaimClean) : Path Lock :=
  pageCacheReclaimMapped r.selected ++ if r.anonymous then visit process else .done

/-- One round of `mmap_handle_fault`. -/
structure Round where
  attempt : Attempt
  reclaim : Option ReclaimClean
deriving DecidableEq

/-- A page fault, as its rounds up to the last. -/
abbrev Fault := List Round

def mmapHandleFault (fault : Fault) : Path Lock :=
  .each (fun r => .holding (.mmap process) r.attempt.path ++
    .whenever (mmapReclaimCleanPages process) r.reclaim) fault

/-- The bits of a leaf of the page table that `user_va2pa` looks at. -/
structure Leaf where
  valid : Bool
  user : Bool
  readable : Bool
  writable : Bool
deriving DecidableEq

/-- `user_va2pa` finds the address, with `PTE_W` or `PTE_R` as the permission. -/
def userVa2pa (write : Bool) (leaf : Option Leaf) : Bool :=
  leaf.any fun l => l.valid && l.user && if write then l.writable else l.readable

/-- A round of `user_copy_va2pa_pinned`: the leaf that it finds, if there is one, and the fault if that does not
    do. -/
structure Look where
  leaf : Option Leaf
  fault : Fault
deriving DecidableEq

/-- A copy to a user (`write`) or from a user, as the rounds for its pages. -/
structure Copy where
  write : Bool
  looks : List Look
deriving DecidableEq

/-- The faults that a copy takes. -/
def Copy.faults (copy : Copy) : List Fault :=
  (copy.looks.filter fun look => !userVa2pa copy.write look.leaf).map Look.fault

/-- All the leaves are there with the permission. -/
def Copy.Resident (copy : Copy) : Prop := ∀ look ∈ copy.looks, userVa2pa copy.write look.leaf = true

instance Copy.decidableResident (copy : Copy) : Decidable copy.Resident :=
  inferInstanceAs (Decidable (∀ look ∈ copy.looks, userVa2pa copy.write look.leaf = true))

def userCopy (copy : Copy) : Path Lock := .each (mmapHandleFault process) copy.faults

def copyout (looks : List Look) : Path Lock := userCopy process ⟨true, looks⟩

def copyin (looks : List Look) : Path Lock := userCopy process ⟨false, looks⟩

/-! ## System calls -/

/-- What `vfs_read` of a regular file finds: the dirty entries; unless they cannot be written, the copies of the
    chunks and the access; the reference dropped at the end. -/
structure Reading where
  entries : List Bool
  copies : Option (List (List Look))
  access : Accessed
  put : Dropped
deriving DecidableEq

def vfsRead (process file : Nat) (sb : SuperBlock) (r : Reading) : Path Lock :=
  pageCacheWritebackInode sb r.entries ++
    .whenever (fun copies => .holding (.position file) (fileRead sb (copies.map (copyout process))) ++
      vfsPathAccessed sb r.access) r.copies ++
    fileRelease r.put

/-- What `vfs_file_write_current` finds: the privileges, unless nothing is to be written; the copies of the
    chunks, unless it has failed before; the copies of `page_cache_refresh`, if bytes have been written. -/
structure Writing where
  privileges : Option Privileges
  copies : Option (List (List Look))
  refresh : Option (List (List Look))
  put : Dropped
deriving DecidableEq

def vfsFileWriteCurrent (sb : SuperBlock) (w : Writing) : Path Lock :=
  .holding (.write sb)
    (getattr sb ++ .whenever (vfsInodeRemovePrivileges sb) w.privileges ++
      .whenever (fun copies => fileWrite sb (copies.map (copyin process))) w.copies ++
      .whenever (fun copies => pageCacheRefresh sb (copies.map (copyin process))) w.refresh)

def vfsWrite (sb : SuperBlock) (w : Writing) : Path Lock :=
  vfsFileWriteCurrent process sb w ++ fileRelease w.put

/-- One round of `mmap_file_truncate`: the processes visited, none if the file grows, and the cache. -/
structure TruncateRound where
  processes : List Nat
  released : List Dropped
  later : List (List Dropped)
deriving DecidableEq

def TruncateRound.path (r : TruncateRound) : Path Lock :=
  .holding .registry (.each visit r.processes ++ pageCacheTruncate r.released r.later)

/-- What `vfs_truncate_inode` finds. Each part is left out when one before it has failed. -/
structure Truncating where
  entries : Option (List Bool)
  privileges : Option Privileges
  truncated : Bool
  /-- the rounds of `mmap_file_truncate`, those to be made again and the last -/
  maps : Option (List TruncateRound × TruncateRound)
  put : Dropped
deriving DecidableEq

def mmapFileTruncate (again : List TruncateRound) (last : TruncateRound) : Path Lock :=
  .each (fun r => r.path ++ .pause) again ++ last.path

def vfsTruncateInode (t : Truncating) : Path Lock :=
  .holding (.write sb)
    (getattr sb ++ .whenever (pageCacheWritebackInodeLocked sb) t.entries ++
      .whenever (vfsInodeRemovePrivileges sb) t.privileges ++ (if t.truncated then truncate sb else .done) ++
      .whenever (fun rounds => mmapFileTruncate rounds.1 rounds.2) t.maps)

def vfsFtruncate (t : Truncating) : Path Lock :=
  vfsTruncateInode sb t ++ fileRelease t.put

/-- `sys_linux_msync`, with the shared file areas in the range and their dirty entries. -/
def sysLinuxMsync (areas : List (SuperBlock × List Bool)) : Path Lock :=
  .holding (.mmap process) (.each (fun a => pageCacheWritebackInode a.1 a.2) areas)

/-- `mmap_process_fork`. -/
def mmapProcessFork (parent : Nat) : Path Lock := .holding .registry (visit parent)

/-- `process_tty_check_read`. -/
def processTtyCheckRead : Path Lock := .holding .waitLock .done

/-- `tty_read`, with the number of sleeps before there is input and the copies of the characters. -/
def ttyRead (process tty sleeps : Nat) (copies : List (List Look)) : Path Lock :=
  processTtyCheckRead ++
    -- the sleep gives the lock up and takes it again
    .each (fun _ => .holding (.tty tty) .done ++ .pause ++ .holding (.tty tty) .done ++ processTtyCheckRead)
      (List.range sleeps) ++
    .holding (.tty tty) (.each (copyout process) copies)

/-- `vfs_read` of a terminal. -/
def vfsReadTty (process file tty sleeps : Nat) (copies : List (List Look)) : Path Lock :=
  .holding (.position file) (ttyRead process tty sleeps copies)

/-- `futex_key_get`: reads the word to see that it is there. -/
def futexKeyGet (word : List Look) : Path Lock := copyin process word

/-- What `futex_wait` finds: the copies for the key and the timeout, the copy of the word if that goes well, and
    whether it sleeps. -/
structure FutexWait where
  key : List Look
  timeout : Option (List Look)
  value : Option (List Look)
  sleeps : Bool
deriving DecidableEq

def futexWait (w : FutexWait) : Path Lock :=
  futexKeyGet process w.key ++ .whenever (copyin process) w.timeout ++
    .whenever (fun value => .holding .futexTable (copyin process value) ++
      if w.sleeps then .pause ++ .holding .futexTable .done else .done) w.value

def futexWake (key : List Look) : Path Lock :=
  futexKeyGet process key ++ .holding .futexTable .done

/-- `futex_requeue`, with the copy of the word if it is to be compared. -/
def futexRequeue (source destination : List Look) (value : Option (List Look)) : Path Lock :=
  futexKeyGet process source ++ futexKeyGet process destination ++
    .holding .futexTable (.whenever (copyin process) value)

/-- `futex_wake_address`, for the private and the shared key. -/
def futexWakeAddress (own shared : List Look) : Path Lock :=
  .holding .futexTable (futexKeyGet process own ++ futexKeyGet process shared)

/-- What `futex_thread_exit` does in turn: it copies parts of the robust list and the thread's id, and wakes. -/
inductive ExitStep where
  | copy (c : Copy)
  | wake (own shared : List Look)
deriving DecidableEq

def ExitStep.path : ExitStep → Path Lock
  | .copy c => userCopy process c
  | .wake own shared => futexWakeAddress process own shared

def futexThreadExit (steps : List ExitStep) : Path Lock := .each (ExitStep.path process) steps

/-- The calls, with the process of the calling thread and what they find. -/
inductive Call where
  | read (process file : Nat) (sb : SuperBlock) (found : Reading)
  | write (process : Nat) (sb : SuperBlock) (found : Writing)
  | truncate (sb : SuperBlock) (found : Truncating)
  | msync (process : Nat) (areas : List (SuperBlock × List Bool))
  | fork (process : Nat)
  /-- a page fault in user mode -/
  | fault (process : Nat) (found : Fault)
  | readTty (process file tty sleeps : Nat) (copies : List (List Look))
  | futexWait (process : Nat) (found : FutexWait)
  | futexWake (process : Nat) (key : List Look)
  | futexRequeue (process : Nat) (source destination : List Look) (value : Option (List Look))
  | threadExit (process : Nat) (steps : List ExitStep)
deriving DecidableEq

def Call.path : Call → Path Lock
  | .read process file sb found => vfsRead process file sb found
  | .write process sb found => vfsWrite process sb found
  | .truncate sb found => vfsFtruncate sb found
  | .msync process areas => sysLinuxMsync process areas
  | .fork process => mmapProcessFork process
  | .fault process found => mmapHandleFault process found
  | .readTty process file tty sleeps copies => vfsReadTty process file tty sleeps copies
  | .futexWait process found => Locking.futexWait process found
  | .futexWake process key => Locking.futexWake process key
  | .futexRequeue process source destination value => Locking.futexRequeue process source destination value
  | .threadExit process steps => futexThreadExit process steps

/-- The threads of the kernel with their locks. -/
abbrev Kernel := Threads Nat Lock

/-- The state after a run of calls and steps, in any interleaving. -/
def Kernel.run (l : List (Step Nat Call)) : Kernel := l.foldl (.step Call.path) Threads.boot

/-- The condition on the call a step begins, if it begins one. -/
def Begins (p : Call → Prop) : Step Nat Call → Prop
  | .begin _ call => p call
  | .next _ => True

instance (p : Call → Prop) [DecidablePred p] : DecidablePred (Begins p)
  | .begin _ call => inferInstanceAs (Decidable (p call))
  | .next _ => isTrue trivial

/-- A discipline that all calls of a run keep is kept in the state after it. -/
theorem Kernel.run_kept {may : Lock → Request Lock → Prop} {p : Call → Prop} {l : List (Step Nat Call)}
    (hcalls : ∀ call, p call → call.path.Keeps may) (hl : ∀ a ∈ l, Begins p a) : (Kernel.run l).Kept may := by
  refine Threads.Kept.run (Runs.Along.of_mem ?_)
  rintro a ha t call rfl
  exact hcalls call (hl _ ha)

end Caffeinix.Locking
