import Caffeinix.Locking.Paths

/-!
# `Locking.Footprint` — which locks a path requests, and inside which

For each function of `Locking.Paths` that takes no copies of a user's memory: the locks it requests lie in every
set that has the locks of the functions it calls (`Leaves`), with those of filesystems only for the files it has
to do with. And it keeps every discipline that lets locks be taken in the order of their levels (`Nests`); the
steps down, from a process to the write lock of the filesystem that a private page is copied from and to the
registry for a file of `/proc`, are kept apart (`Attempt.descends`). The other way round, the locks of the
filesystems that are named are requested (`Takes`).
-/

namespace Caffeinix.Locking

open LockPath Path Lock
open List (mem_flatMap mem_cons_self mem_cons_of_mem forall_mem_append)
open Option (mem_toList)

/-- The lock of a filesystem; that of ext4 can be taken again by its owner and is not one of them. -/
def fsLock (sb : SuperBlock) : Option Lock :=
  match sb.kind with
  | .tmpfs => some (.tmpfs sb.id)
  | .fatfs => some .fatfs
  | .ext4 => none

/-! ## The filesystems a fault calls -/

/-- The last reference calls `release`, which tmpfs does not have, and `put_inode`, which only tmpfs has. -/
def Dropped.files (d : Dropped) : List SuperBlock :=
  d.last.toList.flatMap fun inodes => if d.sb.kind = .tmpfs ∧ inodes = 0 then [] else [d.sb]

def droppedFiles (l : List Dropped) : List SuperBlock := l.flatMap Dropped.files

def Accessed.files (sb : SuperBlock) (a : Accessed) : List SuperBlock :=
  if a = .noted ∧ sb.kind ≠ .fatfs then [sb] else []

def CacheGet.files (sb : SuperBlock) : CacheGet → List SuperBlock
  | .found => []
  | .missed victims read undone => droppedFiles victims ++ (if read then [sb] else []) ++ droppedFiles undone

def Pread.files (sb : SuperBlock) (r : Pread) : List SuperBlock :=
  r.entries.flatMap (fun _ => [sb]) ++ r.read.toList.flatMap fun _ => [sb]

def FileEnding.files (sb : SuperBlock) : FileEnding → List SuperBlock
  | .early => []
  | .cached get access => get.files sb ++ access.files sb
  | .refused get => get.files sb
  | .copied get victims read =>
    get.toList.flatMap (CacheGet.files sb) ++ victims.toList.flatMap droppedFiles ++
      read.toList.flatMap (Pread.files sb)

def FileFault.files (f : FileFault) : List SuperBlock := (if f.elf then [] else [f.sb]) ++ f.ending.files f.sb

def Privileges.files (sb : SuperBlock) (r : Privileges) : List SuperBlock := if r = .superuser then [] else [sb]

def SharedDirty.files (sb : SuperBlock) (d : SharedDirty) : List SuperBlock :=
  d.privileges.files sb ++ d.marked.toList.flatMap fun oldFile => oldFile.toList.flatMap Dropped.files

def Attempt.files : Attempt → List SuperBlock
  | .settled | .procfs _ => []
  | .dirtied sb dirty => dirty.files sb
  | .file fault _ dirty => fault.files ++ dirty.toList.flatMap (SharedDirty.files fault.sb)
  | .backing _ victims => victims.toList.flatMap droppedFiles
  | .zero victims => victims.toList.flatMap droppedFiles

def ReclaimClean.files (r : ReclaimClean) : List SuperBlock :=
  r.selected.flatMap fun entry => entry.toList.flatMap fun e => e.released.toList.flatMap Dropped.files

def Round.files (r : Round) : List SuperBlock := r.attempt.files ++ r.reclaim.toList.flatMap ReclaimClean.files

/-- The filesystems that the faults of a copy call: for the files of the areas, for those that lose a page of the
    cache, and for those whose pages were held by other files. -/
def copyFiles (copy : Copy) : List SuperBlock := copy.faults.flatMap fun fault => fault.flatMap Round.files

/-- The page is read with `vfs_file_pread`, past the page cache, or it is of a file of `/proc`. -/
def Attempt.descends : Attempt → Bool
  | .file ⟨_, _, .copied _ _ (some _)⟩ _ _ => true
  | .procfs _ => true
  | _ => false

def ExitStep.copies : ExitStep → List Copy
  | .copy c => [c]
  | .wake own shared => [⟨false, own⟩, ⟨false, shared⟩]

/-- The copies to and from the user in a call. A page fault in user mode is counted as one. -/
def Call.copies : Call → List Copy
  | .read _ _ _ found => found.copies.toList.flatten.map (.mk true)
  | .write _ _ found => (found.copies.toList.flatten ++ found.refresh.toList.flatten).map (.mk false)
  | .truncate .. | .msync .. | .fork .. => []
  | .fault _ found => [⟨true, [⟨none, found⟩]⟩]
  | .readTty _ _ _ _ copies => copies.map (.mk true)
  | .futexWait _ found => (found.key :: (found.timeout.toList ++ found.value.toList)).map (.mk false)
  | .futexWake _ key => [⟨false, key⟩]
  | .futexRequeue _ source destination value => (source :: destination :: value.toList).map (.mk false)
  | .threadExit _ steps => steps.flatMap ExitStep.copies

/-- The copies that a read or a write makes under the lock of a filesystem. -/
def Call.fsCopies : Call → List (SuperBlock × Copy)
  | .read _ _ sb found => found.copies.toList.flatten.map fun looks => (sb, ⟨true, looks⟩)
  | .write _ sb found => found.copies.toList.flatten.map fun looks => (sb, ⟨false, looks⟩)
  | _ => []

/-- A copy that finds its leaves takes no fault. -/
theorem Copy.Resident.faults {copy : Copy} (h : copy.Resident) : copy.faults = [] := by
  unfold Copy.faults
  rw [List.map_eq_nil_iff, List.filter_eq_nil_iff]
  exact fun look hl => by simp [h look hl]

theorem userCopy_resident {copy : Copy} {process : Nat} (h : copy.Resident) : userCopy process copy = .done := by
  unfold userCopy
  rw [h.faults]
  rfl

/-- No round of the faults goes down in the order. -/
def CopyRises (copy : Copy) : Prop := ∀ fault ∈ copy.faults, ∀ r ∈ fault, r.attempt.descends = false

instance decidableCopyRises (copy : Copy) : Decidable (CopyRises copy) :=
  inferInstanceAs (Decidable (∀ fault ∈ copy.faults, ∀ r ∈ fault, r.attempt.descends = false))

/-! ## The locks requested -/

/-- The lock of the filesystem is in the set, if it has one. -/
def FsIn (S : Lock → Prop) (sb : SuperBlock) : Prop := ∀ k ∈ fsLock sb, S k

/-- The locks for attributes and access times are in the set. -/
structure Leaves (S : Lock → Prop) : Prop where
  attributes : ∀ sb, S (.attribute sb)
  times : ∀ sb, S (.atime sb)

/-- The locks that a fault requests going down in the order are in the set. -/
structure Below (S : Lock → Prop) : Prop where
  write : ∀ sb, S (.write sb)
  registry : S .registry
  mmap : ∀ q, S (.mmap q)
  waitLock : S .waitLock

theorem Below.mono {S S' : Lock → Prop} (h : Below S) (hS : ∀ l, S l → S' l) : Below S' :=
  ⟨fun sb => hS _ (h.write sb), hS _ h.registry, fun q => hS _ (h.mmap q), hS _ h.waitLock⟩

/-! ## The order of the locks -/

/-- The level of a lock: locks are taken upwards, but for the user's memory. -/
@[simp] def Lock.level : Lock → Nat
  | .position _ => 0
  | .write _ => 1
  | .registry => 2
  | .mmap _ => 3
  | .anon _ => 4
  | .pageCache => 5
  | .attribute _ | .atime _ => 6
  | .tmpfs _ | .fatfs => 7
  | .tty _ | .futexTable | .waitLock => 8

/-- A discipline under which every lock may be taken below locks of higher levels, and waits are free under
    sleeplocks. -/
structure Nests (may : Lock → Request Lock → Prop) : Prop where
  waits : ∀ l, l.spin = false → may l .wait
  rises : ∀ l k, l.level < k.level → may l (.acquire k)

variable {may : Lock → Request Lock → Prop} {S : Lock → Prop} {sb : SuperBlock} {p q : Path Lock} {l : Lock}
  {process : Nat}

theorem fsLock_level {k : Lock} (h : k ∈ fsLock sb) : k.level = 7 := by
  unfold fsLock at h
  split at h <;> cases h <;> rfl

section Nests

variable (hn : Nests may)
include hn

/-- Below the level of filesystems their locks may be taken. -/
theorem Nests.fsIn (hl : l.level < 7) (h : FsIn S sb) : FsIn (fun k => S k ∧ may l (.acquire k)) sb :=
  fun k hk => ⟨h k hk, hn.rises l k (by rw [fsLock_level hk]; exact hl)⟩

/-- Below the level of attributes their locks may be taken. -/
theorem Nests.leaves (hl : l.level < 6) (h : Leaves S) : Leaves fun k => S k ∧ may l (.acquire k) :=
  ⟨fun sb => ⟨h.attributes sb, hn.rises l _ hl⟩, fun sb => ⟨h.times sb, hn.rises l _ hl⟩⟩

/-- A critical section under a sleeplock. -/
theorem Nests.holding (hl : S l) (hspin : l.spin = false) (hp : p.Fits may fun k => S k ∧ may l (.acquire k)) :
    (holding l p).Fits may S :=
  hp.holding hl (hn.waits l hspin)

/-! ## Filesystems -/

/-- What tmpfs and FAT do under their locks, and ext4 under none. -/
theorem filesystem_fits (h : FsIn S sb) (hp : p.Fits may fun k => S k ∧ ∀ l ∈ fsLock sb, may l (.acquire k))
    (hq : q.Fits may fun k => S k ∧ ∀ l ∈ fsLock sb, may l (.acquire k)) :
    (match sb.kind with
      | .tmpfs => holding (tmpfs sb.id) p
      | .fatfs => holding fatfs q
      | .ext4 => q).Fits may S := by
  split
  · rename_i hk
    have hmem : tmpfs sb.id ∈ fsLock sb := by simp [fsLock, hk]
    exact hn.holding (h _ hmem) rfl (hp.mono fun k hS => ⟨hS.1, hS.2 _ hmem⟩)
  · rename_i hk
    have hmem : fatfs ∈ fsLock sb := by simp [fsLock, hk]
    exact hn.holding (h _ hmem) rfl (hq.mono fun k hS => ⟨hS.1, hS.2 _ hmem⟩)
  · exact hq.mono fun k hS => hS.1

theorem operation_fits (h : FsIn S sb) : (operation sb).Fits may S :=
  filesystem_fits hn h fits_done fits_pause

variable {copies : List (Path Lock)} {copy : Copy} {file : Nat} {call : Call}

section
variable (h : FsIn S sb) (hc : ∀ c ∈ copies, c.Fits may fun k => S k ∧ ∀ l ∈ fsLock sb, may l (.acquire k))
include h hc

/-- A read whose copies may be made under the lock of the filesystem. -/
theorem fileRead_fits : (fileRead sb copies).Fits may S :=
  filesystem_fits hn h (by simpa using hc) (by simpa using hc)

theorem fileWrite_fits : (fileWrite sb copies).Fits may S :=
  filesystem_fits hn h (by simpa using hc) (by simpa using hc)

end

theorem vfsFilePreadRaw_fits (h : FsIn S sb) : (vfsFilePreadRaw sb).Fits may S := fileRead_fits hn h (by simp)

theorem vfsFilePwriteRaw_fits (h : FsIn S sb) : (vfsFilePwriteRaw sb).Fits may S := fileWrite_fits hn h (by simp)

/-- An operation that only some filesystems have. -/
theorem operation_or_done_fits {c : Prop} [Decidable c] (h : FsIn S sb) :
    (if c then .done else operation sb).Fits may S :=
  fits_done.ite (operation_fits hn h)

theorem fileRelease_fits {d : Dropped} (h : ∀ f ∈ d.files, FsIn S f) : (fileRelease d).Fits may S := by
  refine fits_whenever.2 fun inodes hlast => ?_
  by_cases hnone : d.sb.kind = .tmpfs ∧ inodes = 0
  · simp [release, hnone.1, hnone.2, each]
  have hfs : FsIn S d.sb := h _ (mem_flatMap.2 ⟨inodes, mem_toList.2 hlast, by rw [if_neg hnone]; exact mem_cons_self⟩)
  refine fits_append.2 ⟨operation_or_done_fits hn hfs, ?_⟩
  exact fits_each.2 fun _ _ => (operation_fits hn hfs).ite fits_done

theorem releases_fits {l : List Dropped} (h : ∀ f ∈ droppedFiles l, FsIn S f) :
    (each fileRelease l).Fits may S :=
  fits_each.2 fun d hd => fileRelease_fits hn fun f hf => h f (mem_flatMap.2 ⟨d, hd, hf⟩)

theorem vfsPathAccessed_fits (hS : Leaves S) {a : Accessed} (h : ∀ f ∈ a.files sb, FsIn S f) :
    (vfsPathAccessed sb a).Fits may S := by
  unfold vfsPathAccessed
  split
  · exact fits_done
  · exact fits_done
  · exact hn.holding (hS.times sb) rfl fits_done
  · rename_i hkind
    have hfs : FsIn S sb := h sb (by simp [Accessed.files, show sb.kind ≠ .fatfs from hkind])
    exact hn.holding (hS.times sb) rfl (operation_or_done_fits hn (hn.fsIn (by simp) hfs))

theorem vfsInodeRemovePrivileges_fits (hS : Leaves S) {r : Privileges} (h : ∀ f ∈ r.files sb, FsIn S f) :
    (vfsInodeRemovePrivileges sb r).Fits may S := by
  cases r with
  | superuser => exact fits_done
  | kept =>
    exact hn.holding (hS.attributes sb) rfl (operation_fits hn (hn.fsIn (by simp) (h sb (by simp [Privileges.files]))))
  | cleared =>
    have hfs := hn.fsIn (l := .attribute sb) (by simp) (h sb (by simp [Privileges.files]))
    refine hn.holding (hS.attributes sb) rfl (fits_append.2 ⟨operation_fits hn hfs, ?_⟩)
    exact operation_or_done_fits hn hfs

/-! ## The page cache and page faults -/

section Cache

variable (hcache : S .pageCache)
include hcache

theorem cacheSection_fits : (holding pageCache .done).Fits may S :=
  hn.holding hcache rfl fits_done

theorem pageCacheReclaim_fits {l : List Dropped} (h : ∀ f ∈ droppedFiles l, FsIn S f) :
    (pageCacheReclaim l).Fits may S :=
  hn.holding hcache rfl (releases_fits hn fun f hf => hn.fsIn (by simp) (h f hf))

theorem pageCacheReclaims_fits {victims : Option (List Dropped)}
    (h : ∀ f ∈ victims.toList.flatMap droppedFiles, FsIn S f) :
    (whenever pageCacheReclaim victims).Fits may S :=
  fits_whenever.2 fun v hv => pageCacheReclaim_fits hn hcache fun f hf =>
    h f (mem_flatMap.2 ⟨v, mem_toList.2 hv, hf⟩)

theorem pageCacheGet_fits {get : CacheGet} (hget : ∀ f ∈ get.files sb, FsIn S f) :
    (pageCacheGet sb get).Fits may S := by
  cases get with
  | found => exact cacheSection_fits hn hcache
  | missed victims read =>
    obtain ⟨hv, hu⟩ := forall_mem_append.1 hget
    obtain ⟨hv, hread⟩ := forall_mem_append.1 hv
    refine hn.holding hcache rfl (fits_append.2 ⟨fits_append.2 ⟨?_, ?_⟩, ?_⟩)
    · exact releases_fits hn fun f hf => hn.fsIn (by simp) (hv f hf)
    · cases read with
      | false => exact fits_done
      | true => exact vfsFilePreadRaw_fits hn (hn.fsIn (by simp) (hread sb mem_cons_self))
    · exact releases_fits hn fun f hf => hn.fsIn (by simp) (hu f hf)

theorem vfsFileMarkSharedDirty_fits {d : SharedDirty} (hS : Leaves S) (hd : ∀ f ∈ d.files sb, FsIn S f) :
    (vfsFileMarkSharedDirty sb d).Fits may S := by
  obtain ⟨hp, hd⟩ := forall_mem_append.1 hd
  refine fits_append.2 ⟨vfsInodeRemovePrivileges_fits hn hS hp, fits_whenever.2 fun old hold => ?_⟩
  refine fits_append.2 ⟨cacheSection_fits hn hcache, fits_whenever.2 fun o ho => fileRelease_fits hn fun f hf => ?_⟩
  exact hd f (mem_flatMap.2 ⟨old, mem_toList.2 hold, mem_flatMap.2 ⟨o, mem_toList.2 ho, hf⟩⟩)

theorem pageCacheWritebackInodeLocked_fits {entries : List Bool} (h : entries ≠ [] → FsIn S sb) :
    (pageCacheWritebackInodeLocked sb entries).Fits may S := by
  refine hn.holding hcache rfl (fits_each.2 fun written hmem => ?_)
  have hfs := hn.fsIn (l := .pageCache) (by simp) (h (List.ne_nil_of_mem hmem))
  exact fits_append.2 ⟨operation_fits hn hfs, (vfsFilePwriteRaw_fits hn hfs).ite fits_done⟩

theorem pageCacheWritebackInode_fits (hwrite : S (.write sb)) {entries : List Bool} (h : entries ≠ [] → FsIn S sb) :
    (pageCacheWritebackInode sb entries).Fits may S :=
  hn.holding hwrite rfl (pageCacheWritebackInodeLocked_fits hn ⟨hcache, hn.rises _ _ (by simp)⟩ fun hne =>
    hn.fsIn (by simp) (h hne))

theorem vfsFilePread_fits (hS : Leaves S) (hwrite : S (.write sb)) {r : Pread} (h : ∀ f ∈ r.files sb, FsIn S f) :
    (vfsFilePread sb r).Fits may S := by
  obtain ⟨hentries, hread⟩ := forall_mem_append.1 h
  refine fits_append.2 ⟨pageCacheWritebackInode_fits hn hcache hwrite fun hne => ?_, fits_whenever.2 fun a ha => ?_⟩
  · obtain ⟨e, he⟩ := List.exists_mem_of_ne_nil _ hne
    exact hentries sb (mem_flatMap.2 ⟨e, he, mem_cons_self⟩)
  · have hfs : FsIn S sb := hread sb (mem_flatMap.2 ⟨a, mem_toList.2 ha, mem_cons_self⟩)
    refine fits_append.2 ⟨vfsFilePreadRaw_fits hn hfs, vfsPathAccessed_fits hn hS fun f hf => ?_⟩
    unfold Accessed.files at hf
    split at hf
    · rwa [List.mem_singleton.1 hf]
    · cases hf

theorem mmapFileFault_fits {f : FileFault} (hS : Leaves S)
    (hwrite : ∀ get victims r, f.ending = .copied get victims (some r) → S (.write f.sb))
    (h : ∀ b ∈ f.files, FsIn S b) : (mmapFileFault f).Fits may S := by
  obtain ⟨hsb, hend⟩ := forall_mem_append.1 h
  refine fits_append.2 ⟨?_, ?_⟩
  · split_ifs with helf
    · exact fits_done
    · rw [if_neg helf] at hsb
      exact operation_fits hn (hsb _ mem_cons_self)
  cases he : f.ending with
  | early => exact fits_done
  | cached =>
    rw [he] at hend
    obtain ⟨hget, haccess⟩ := forall_mem_append.1 hend
    exact fits_append.2 ⟨pageCacheGet_fits hn hcache hget, vfsPathAccessed_fits hn hS haccess⟩
  | refused =>
    rw [he] at hend
    exact pageCacheGet_fits hn hcache hend
  | copied get victims =>
    rw [he] at hend
    obtain ⟨hend, hread⟩ := forall_mem_append.1 hend
    obtain ⟨hget, hv⟩ := forall_mem_append.1 hend
    refine fits_append.2 ⟨fits_append.2 ⟨?_, pageCacheReclaims_fits hn hcache hv⟩, ?_⟩
    · refine fits_whenever.2 fun g hg => pageCacheGet_fits hn hcache fun b hb => hget b ?_
      exact mem_flatMap.2 ⟨g, mem_toList.2 hg, hb⟩
    · refine fits_whenever.2 fun r hr => vfsFilePread_fits hn hcache hS ?_ fun b hb => hread b ?_
      · cases hr
        exact hwrite get victims r he
      · exact mem_flatMap.2 ⟨r, mem_toList.2 hr, hb⟩

omit hcache in
theorem processSnapshotPid_fits (h : Below S) (usage : Option (Option Nat)) :
    (processSnapshotPid usage).Fits may S := by
  refine fits_append.2 ⟨⟨only_holding.2 ⟨h.waitLock, only_done⟩, by simp⟩, fits_whenever.2 fun registered _ => ?_⟩
  refine hn.holding h.registry rfl (fits_whenever.2 fun q _ => ?_)
  exact hn.holding ⟨h.mmap q, hn.rises _ _ (by simp)⟩ rfl fits_done

/-- What a fault requests under the lock of the process. -/
theorem attempt_fits {a : Attempt} (hS : Leaves S) (hanon : ∀ m, S (.anon m))
    (hbelow : a.descends = true → Below S) (h : ∀ f ∈ a.files, FsIn S f) : a.path.Fits may S := by
  cases a with
  | settled => exact fits_done
  | procfs usage => exact processSnapshotPid_fits hn (hbelow rfl) usage
  | dirtied => exact vfsFileMarkSharedDirty_fits hn hcache hS h
  | file fault =>
    obtain ⟨hf, hd⟩ := forall_mem_append.1 h
    refine fits_append.2 ⟨fits_append.2 ⟨mmapFileFault_fits hn hcache hS ?_ hf, ?_⟩, ?_⟩
    · rintro get victims r he
      refine (hbelow ?_).write fault.sb
      obtain ⟨sb, elf, ending⟩ := fault
      cases he
      rfl
    · exact (cacheSection_fits hn hcache).ite fits_done
    · refine fits_whenever.2 fun d hd' => vfsFileMarkSharedDirty_fits hn hcache hS fun b hb => hd b ?_
      exact mem_flatMap.2 ⟨d, mem_toList.2 hd', hb⟩
  | backing mapping =>
    refine hn.holding (hanon mapping) rfl (pageCacheReclaims_fits hn ⟨hcache, hn.rises _ _ (by simp)⟩ ?_)
    exact fun f hf => hn.fsIn (by simp) (h f hf)
  | zero => exact pageCacheReclaims_fits hn hcache h

variable (hregistry : S .registry) (hmmap : ∀ q, S (.mmap q))
include hregistry hmmap

omit hcache hregistry in
theorem visits_fit (l : List Nat) : (each visit l).Fits may S :=
  fits_each.2 fun q _ => hn.holding (hmmap q) rfl fits_done

theorem mmapReclaimCleanPages_fits {r : ReclaimClean} (h : ∀ f ∈ r.files, FsIn S f) :
    (mmapReclaimCleanPages process r).Fits may S := by
  have hbare := cacheSection_fits hn hcache
  have hvisits := visits_fit hn (S := fun k => S k ∧ may .registry (.acquire k)) fun q =>
    ⟨hmmap q, hn.rises _ _ (by simp)⟩
  refine fits_append.2 ⟨fits_append.2 ⟨hbare, fits_each.2 fun entry hentry => ?_⟩, ?_⟩
  · refine fits_append.2 ⟨hbare, fits_whenever.2 fun e he => fits_append.2 ⟨?_, ?_⟩⟩
    · exact hn.holding hregistry rfl (fits_append.2 ⟨hvisits _, hvisits _⟩)
    · refine hn.holding hcache rfl (fits_whenever.2 fun d hd => fileRelease_fits hn fun f hf =>
        hn.fsIn (by simp) (h f ?_))
      refine mem_flatMap.2 ⟨entry, hentry, mem_flatMap.2 ⟨e, mem_toList.2 he, ?_⟩⟩
      exact mem_flatMap.2 ⟨d, mem_toList.2 hd, hf⟩
  · exact (hn.holding (hmmap process) rfl fits_done).ite fits_done

variable {copy : Copy}

variable (hS : Leaves S) (hanon : ∀ m, S (.anon m))
include hS hanon

/-- The faults of a copy, if they may go down in the order from the lock of the process, or do not. -/
theorem userCopy_fits (hbelow : CopyRises copy ∨ Below fun k => S k ∧ may (.mmap process) (.acquire k))
    (h : ∀ f ∈ copyFiles copy, FsIn S f) : (userCopy process copy).Fits may S := by
  refine fits_each.2 fun fault hfault => fits_each.2 fun r hr => ?_
  have hfiles : ∀ f ∈ r.files, FsIn S f := fun f hf =>
    h f (mem_flatMap.2 ⟨fault, hfault, mem_flatMap.2 ⟨r, hr, hf⟩⟩)
  obtain ⟨ha, hr'⟩ := forall_mem_append.1 hfiles
  refine fits_append.2 ⟨hn.holding (hmmap process) rfl ?_, fits_whenever.2 fun c hc => ?_⟩
  · refine attempt_fits hn ⟨hcache, hn.rises _ _ (by simp)⟩ (hn.leaves (by simp) hS)
      (fun m => ⟨hanon m, hn.rises _ _ (by simp)⟩) (fun hp => ?_) fun f hf => hn.fsIn (by simp) (ha f hf)
    cases hbelow with
    | inl hrises =>
      rw [hrises fault hfault r hr] at hp
      cases hp
    | inr hbelow => exact hbelow
  · refine mmapReclaimCleanPages_fits hn hcache hregistry hmmap fun f hf => hr' f ?_
    exact mem_flatMap.2 ⟨c, mem_toList.2 hc, hf⟩

omit hn in
/-- What the faults of a copy request. -/
theorem userCopy_only (hbelow : CopyRises copy ∨ Below S) (h : ∀ f ∈ copyFiles copy, FsIn S f) :
    (userCopy process copy).Only S := by
  have hfits : (userCopy process copy).Fits (fun _ _ => True) S :=
    userCopy_fits ⟨fun _ _ => trivial, fun _ _ _ => trivial⟩ hcache hregistry hmmap hS hanon
      (hbelow.imp_right fun hb => hb.mono fun k hk => ⟨hk, trivial⟩) h
  exact hfits.1

end Cache

theorem userCopy_keeps (hbelow : CopyRises copy ∨ Below fun k => may (.mmap process) (.acquire k)) :
    (userCopy process copy).Keeps may :=
  (userCopy_fits (S := fun _ => True) hn trivial trivial (fun _ => trivial) ⟨fun _ => trivial, fun _ => trivial⟩
    (fun _ => trivial) (hbelow.imp_right fun hb => hb.mono fun _ hk => ⟨trivial, hk⟩) fun _ _ _ _ => trivial).2

/-- What a copy requests may be requested below the lowest locks. -/
theorem userCopy_below (hl : l.level < 2) (hwrite : CopyRises copy ∨ ∀ sb, may l (.acquire (.write sb))) :
    (userCopy process copy).Only fun k => may l (.acquire k) := by
  have rises : ∀ k : Lock, 2 ≤ k.level → may l (.acquire k) := fun k hk => hn.rises l k (by omega)
  refine userCopy_only (rises _ (by simp)) (rises _ (by simp)) (fun q => rises _ (by simp))
    ⟨fun _ => rises _ (by simp), fun _ => rises _ (by simp)⟩ (fun m => rises _ (by simp))
    (hwrite.imp_right fun hw => ?_) fun f _ k hk => ?_
  · exact ⟨hw, rises _ (by simp), fun q => rises _ (by simp), rises _ (by simp)⟩
  · exact rises k (by rw [fsLock_level hk]; omega)

/-! ## The calls -/

omit hn in
/-- Nothing is asked of the locks that are taken outside of all others. -/
theorem fsIn_any (sb : SuperBlock) : FsIn (fun _ => True) sb := fun _ _ => trivial

theorem release_fits_any (d : Dropped) : (fileRelease d).Fits may fun _ => True :=
  fileRelease_fits hn fun f _ => fsIn_any f

omit hn in
theorem leaves_any : Leaves fun _ => True := ⟨fun _ => trivial, fun _ => trivial⟩

theorem vfsRead_keeps {r : Reading} (hc : ∀ copies ∈ r.copies, ∀ c ∈ copies, (copyout process c).Keeps may)
    (hfs : ∀ k ∈ fsLock sb, ∀ copies ∈ r.copies, ∀ c ∈ copies, (copyout process c).Only fun k' => may k (.acquire k')) :
    (vfsRead process file sb r).Keeps may := by
  have hfsIn := fsIn_any sb
  refine .right (fits_append.2 ⟨fits_append.2 ⟨?_, ?_⟩, release_fits_any hn _⟩)
  · exact pageCacheWritebackInode_fits hn trivial trivial fun _ => hfsIn
  · refine fits_whenever.2 fun copies hcopies => fits_append.2 ⟨hn.holding trivial rfl ?_, ?_⟩
    · refine fileRead_fits hn (hn.fsIn (by simp) hfsIn) (List.forall_mem_map.2 fun c hcopy => ⟨fun k hk => ?_, ?_⟩)
      · refine ⟨⟨trivial, ?_⟩, fun l hl => hfs l hl copies hcopies c hcopy k hk⟩
        exact userCopy_below hn (by simp) (.inr fun _ => hn.rises _ _ (by simp)) k hk
      · exact hc copies hcopies c hcopy
    · exact vfsPathAccessed_fits hn leaves_any fun f _ => fsIn_any f

theorem vfsWrite_keeps {w : Writing}
    (hc : ∀ copies ∈ w.copies, ∀ c ∈ copies, (copyin process c).Keeps may)
    (hfs : ∀ k ∈ fsLock sb, ∀ copies ∈ w.copies, ∀ c ∈ copies, (copyin process c).Only fun k' => may k (.acquire k'))
    (hwrite : ∀ copies ∈ w.copies, ∀ c ∈ copies, (copyin process c).Only fun k => may (.write sb) (.acquire k))
    (hr : ∀ copies ∈ w.refresh, ∀ c ∈ copies, (copyin process c).Keeps may)
    (hcache : ∀ copies ∈ w.refresh, ∀ c ∈ copies, (copyin process c).Only fun k => may .pageCache (.acquire k))
    (hwrite' : ∀ copies ∈ w.refresh, ∀ c ∈ copies, (copyin process c).Only fun k => may (.write sb) (.acquire k)) :
    (vfsWrite process sb w).Keeps may := by
  have hfsIn := hn.fsIn (l := .write sb) (by simp) (fsIn_any sb)
  refine .right (fits_append.2 ⟨hn.holding trivial rfl ?_, release_fits_any hn _⟩)
  refine fits_append.2 ⟨fits_append.2 ⟨fits_append.2 ⟨operation_fits hn hfsIn, ?_⟩, ?_⟩, ?_⟩
  · exact fits_whenever.2 fun r _ => vfsInodeRemovePrivileges_fits hn (hn.leaves (by simp) leaves_any) fun f _ =>
      hn.fsIn (by simp) (fsIn_any f)
  · refine fits_whenever.2 fun copies hcopies =>
      fileWrite_fits hn hfsIn (List.forall_mem_map.2 fun c hcopy => ⟨fun k hk => ⟨⟨trivial, ?_⟩, fun l hl => ?_⟩, ?_⟩)
    · exact hwrite copies hcopies c hcopy k hk
    · exact hfs l hl copies hcopies c hcopy k hk
    · exact hc copies hcopies c hcopy
  · refine fits_whenever.2 fun copies hcopies => hn.holding ⟨trivial, hn.rises _ _ (by simp)⟩ rfl ?_
    refine fits_each.2 (List.forall_mem_map.2 fun c hcopy => fits_append.2 ⟨?_, fun k hk => ?_, ?_⟩)
    · exact vfsFilePreadRaw_fits hn (hn.fsIn (by simp) hfsIn)
    · exact ⟨⟨trivial, hwrite' copies hcopies c hcopy k hk⟩, hcache copies hcopies c hcopy k hk⟩
    · exact hr copies hcopies c hcopy

/-- A round of `mmap_file_truncate` goes from the registry to the processes and to the page cache. -/
theorem truncateRound_fits (hregistry : S .registry) (hmmap : ∀ q, S (.mmap q)) (hcache : S .pageCache)
    (hfs : ∀ sb, FsIn S sb) (r : TruncateRound) : r.path.Fits may S := by
  have hreclaim : ∀ d, (pageCacheReclaim d).Fits may fun k => S k ∧ may .registry (.acquire k) := fun d =>
    pageCacheReclaim_fits hn ⟨hcache, hn.rises _ _ (by simp)⟩ fun f _ => hn.fsIn (by simp) (hfs f)
  refine hn.holding hregistry rfl (fits_append.2 ⟨?_, fits_append.2 ⟨hreclaim _, ?_⟩⟩)
  · exact visits_fit hn (fun q => ⟨hmmap q, hn.rises _ _ (by simp)⟩) _
  · exact fits_each.2 fun d _ => fits_append.2 ⟨fits_pause, hreclaim d⟩

theorem vfsFtruncate_keeps {t : Truncating} : (vfsFtruncate sb t).Keeps may := by
  have hany : ∀ b, FsIn (fun k => True ∧ may (.write sb) (.acquire k)) b := fun b => hn.fsIn (by simp) (fsIn_any b)
  have rises : ∀ k : Lock, 1 < k.level → True ∧ may (.write sb) (.acquire k) := fun k hk => ⟨trivial, hn.rises _ k hk⟩
  have hround := truncateRound_fits hn (rises _ (by simp)) (fun q => rises _ (by simp)) (rises _ (by simp)) hany
  refine .right (fits_append.2 ⟨hn.holding trivial rfl ?_, release_fits_any hn _⟩)
  refine fits_append.2 ⟨fits_append.2 ⟨fits_append.2 ⟨fits_append.2
    ⟨operation_fits hn (hany sb), ?_⟩, ?_⟩, ?_⟩, ?_⟩
  · exact fits_whenever.2 fun entries _ =>
      pageCacheWritebackInodeLocked_fits hn (rises _ (by simp)) fun _ => hany sb
  · exact fits_whenever.2 fun r _ =>
      vfsInodeRemovePrivileges_fits hn (hn.leaves (by simp) leaves_any) fun f _ => hany f
  · exact (operation_fits hn (hany sb)).ite fits_done
  · refine fits_whenever.2 fun rounds _ => fits_append.2 ⟨?_, hround _⟩
    exact fits_each.2 fun r _ => fits_append.2 ⟨hround r, fits_pause⟩

theorem mmapProcessFork_keeps {parent : Nat} : (mmapProcessFork parent).Keeps may :=
  (hn.holding (S := fun _ => True) trivial rfl
    (hn.holding ⟨trivial, hn.rises _ _ (by simp)⟩ rfl fits_done)).2

theorem sysLinuxMsync_keeps {areas : List (SuperBlock × List Bool)}
    (h : areas = [] ∨ ∀ sb, may (.mmap process) (.acquire (.write sb))) :
    (sysLinuxMsync process areas).Keeps may := by
  refine .right (hn.holding (S := fun _ => True) trivial rfl (fits_each.2 fun a ha => ?_))
  cases h with
  | inl h =>
    rw [h] at ha
    cases ha
  | inr h =>
    exact pageCacheWritebackInode_fits hn ⟨trivial, hn.rises _ _ (by simp)⟩ ⟨trivial, h a.1⟩ fun _ =>
      hn.fsIn (by simp) (fsIn_any a.1)

variable (hspin : ∀ l r, l.spin = true → may l r)
include hspin

omit hn in
/-- A critical section under a spinlock that restricts nothing. -/
theorem keeps_spin (hl : l.spin = true) (hp : p.Keeps may) : (holding l p).Keeps may :=
  keeps_holding.2 ⟨fun r _ => hspin l r hl, hp⟩

theorem vfsReadTty_keeps {tty sleeps : Nat} {copies : List (List Look)}
    (hc : ∀ c ∈ copies, (copyout process c).Keeps may) :
    (vfsReadTty process file tty sleeps copies).Keeps may := by
  have hcheck : processTtyCheckRead.Keeps may := keeps_spin hspin rfl keeps_done
  have hbare : (holding (Lock.tty tty) .done).Keeps may := keeps_spin hspin rfl keeps_done
  have rises : ∀ k : Lock, 0 < k.level → may (.position file) (.acquire k) := fun k hk => hn.rises _ _ hk
  refine keeps_holding.2 ⟨Path.Only.allowed ?_ (hn.waits _ rfl), keeps_append.2 ⟨keeps_append.2 ⟨hcheck, ?_⟩, ?_⟩⟩
  · simp only [ttyRead, processTtyCheckRead, only_append, only_each, only_holding, only_done,
      only_pause, and_true]
    refine ⟨⟨rises _ (by simp), fun _ _ => ⟨⟨rises _ (by simp), rises _ (by simp)⟩, rises _ (by simp)⟩⟩,
      rises _ (by simp), fun c _ => ?_⟩
    exact userCopy_below hn (by simp) (.inr fun _ => rises _ (by simp))
  · refine keeps_each.2 fun _ _ => keeps_append.2 ⟨keeps_append.2 ⟨?_, hbare⟩, hcheck⟩
    exact keeps_append.2 ⟨hbare, keeps_pause⟩
  · exact keeps_spin hspin rfl (keeps_each.2 hc)

omit hn in
theorem futexWait_keeps {w : FutexWait} (hkey : (copyin process w.key).Keeps may)
    (htimeout : ∀ c ∈ w.timeout, (copyin process c).Keeps may)
    (hvalue : ∀ c ∈ w.value, (copyin process c).Keeps may) : (futexWait process w).Keeps may := by
  refine keeps_append.2 ⟨keeps_append.2 ⟨hkey, keeps_whenever.2 htimeout⟩, ?_⟩
  refine keeps_whenever.2 fun c hc => keeps_append.2 ⟨keeps_spin hspin rfl (hvalue c hc), ?_⟩
  split_ifs
  · exact keeps_append.2 ⟨keeps_pause, keeps_spin hspin rfl keeps_done⟩
  · exact keeps_done

omit hn in
theorem futexWake_keeps {key : List Look} (hkey : (copyin process key).Keeps may) :
    (futexWake process key).Keeps may :=
  keeps_append.2 ⟨hkey, keeps_spin hspin rfl keeps_done⟩

omit hn in
theorem futexRequeue_keeps {source destination : List Look} {value : Option (List Look)}
    (hsource : (copyin process source).Keeps may) (hdest : (copyin process destination).Keeps may)
    (hvalue : ∀ c ∈ value, (copyin process c).Keeps may) :
    (futexRequeue process source destination value).Keeps may :=
  keeps_append.2 ⟨keeps_append.2 ⟨hsource, hdest⟩, keeps_spin hspin rfl (keeps_whenever.2 hvalue)⟩

omit hn in
theorem futexThreadExit_keeps {steps : List ExitStep}
    (hc : ∀ c ∈ steps.flatMap ExitStep.copies, (userCopy process c).Keeps may) :
    (futexThreadExit process steps).Keeps may := by
  refine keeps_each.2 fun step hstep => ?_
  have hcopies : ∀ c ∈ step.copies, (userCopy process c).Keeps may := fun c h =>
    hc c (mem_flatMap.2 ⟨step, hstep, h⟩)
  cases step with
  | copy c => exact hcopies c (by simp [ExitStep.copies])
  | wake own shared =>
    refine keeps_spin hspin rfl (keeps_append.2 ⟨?_, ?_⟩)
    · exact hcopies ⟨false, own⟩ (by simp [ExitStep.copies])
    · exact hcopies ⟨false, shared⟩ (by simp [ExitStep.copies])

/-- The calls with critical sections under a spinlock. -/
def Call.Spins : Call → Prop
  | .readTty .. | .futexWait .. | .futexWake .. | .futexRequeue .. | .threadExit .. => True
  | _ => False

variable (hc : ∀ q, ∀ c ∈ call.copies, (userCopy q c).Keeps may)
include hc

/-- These calls, under a discipline that does not restrict spinlocks. -/
theorem spins_keep (h : call.Spins) : call.path.Keeps may := by
  cases call with
  | read | write | truncate | msync | fork | fault => exact h.elim
  | readTty q => exact vfsReadTty_keeps hn hspin fun c h => hc q _ (List.mem_map_of_mem h)
  | futexWait q =>
    refine futexWait_keeps hspin (hc q _ ?_) (fun c h => hc q _ ?_) fun c h => hc q _ ?_ <;>
      apply List.mem_map_of_mem
    · exact mem_cons_self
    · exact mem_cons_of_mem _ (List.mem_append_left _ (mem_toList.2 h))
    · exact mem_cons_of_mem _ (List.mem_append_right _ (mem_toList.2 h))
  | futexWake q key => exact futexWake_keeps hspin (hc q _ mem_cons_self)
  | futexRequeue q =>
    refine futexRequeue_keeps hspin (hc q _ ?_) (hc q _ ?_) fun c h => hc q _ ?_ <;> apply List.mem_map_of_mem
    · exact mem_cons_self
    · exact mem_cons_of_mem _ mem_cons_self
    · exact mem_cons_of_mem _ (mem_cons_of_mem _ (mem_toList.2 h))
  | threadExit q => exact futexThreadExit_keeps hspin (hc q)

omit hspin in
/-- A call whose copies keep the discipline keeps it, but for what a read, a write and `msync` do under their
    locks, and for spinlocks. -/
theorem call_keeps (hread : ∀ q file sb r, call = .read q file sb r → (vfsRead q file sb r).Keeps may)
    (hwrite : ∀ q sb w, call = .write q sb w → (vfsWrite q sb w).Keeps may)
    (hmsync : ∀ q areas, call = .msync q areas → (sysLinuxMsync q areas).Keeps may)
    (hspins : call.Spins → call.path.Keeps may) : call.path.Keeps may := by
  cases call with
  | read q file sb found => exact hread q file sb found rfl
  | write q sb found => exact hwrite q sb found rfl
  | truncate => exact vfsFtruncate_keeps hn
  | msync q areas => exact hmsync q areas rfl
  | fork => exact mmapProcessFork_keeps hn
  | fault q found =>
    have h := hc q ⟨true, [⟨none, found⟩]⟩ (by simp [Call.copies])
    exact keeps_each.1 h found mem_cons_self
  | readTty | futexWait | futexWake | futexRequeue | threadExit => exact hspins trivial

end Nests

end Caffeinix.Locking
