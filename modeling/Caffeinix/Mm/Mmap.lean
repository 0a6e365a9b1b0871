import Caffeinix.Mm.PageCache

/-!
# `Mm.Mmap` — mappings and page faults (`kernel/mmap.c`, `kernel/anon_mapping.c`)

The memory calls of a process, the page fault, fork and exit, and the unmapping that reclaim and truncation
do in all address spaces. `mmap_handle_fault` is one pass through the function: its `goto retry` is another
call, after whatever other steps.
-/

namespace Caffeinix.Mm

open Vma

variable {Proc : Type} [DecidableEq Proc]

/-! ## Shared anonymous mappings -/

variable (s : Machine Proc)

/-- The list of a mapping loses a page. -/
def anonRelease (entry : AnonPage) : Machine Proc :=
  pfree { s with anon := s.anon.erase entry } entry.page

/-- What `anon_mapping_put` does for the mappings whose last reference has gone. -/
def anonMappingPut : Machine Proc :=
  (s.anon.filter fun entry => s.vmas.refs (.backing entry.mapping) = 0).foldl anonRelease s

/-- A call of `vma.c` on the set of a process. -/
def Machine.vma (op : VmaOp Proc) : Machine Proc × Int :=
  (anonMappingPut { s with vmas := (s.vmas.step op).1 }, (s.vmas.step op).2)

theorem Machine.vma_result (op : VmaOp Proc) : (s.vma op).2 = (s.vmas.step op).2 := rfl

/-- `anon_mapping_get_page`. -/
def anonMappingGetPage (mapping : VmaBacking) (offset : Nat) : Machine Proc × Option Page :=
  if offset % pgsize ≠ 0 then (s, none)
  else
    match s.anon.find? fun entry => entry.mapping = mapping ∧ entry.offset = offset with
    | some entry =>
      let r := pallocGet s entry.page
      (r.1, if r.2 then some entry.page else none)
    | none =>
      let first := allocEntryPage s
      match first.2 with
      | none => (first.1, none)
      | some page =>
        let s : Machine Proc := { first.1 with anon := ⟨mapping, offset, page⟩ :: first.1.anon }
        let r := pallocGet s page
        if r.2 then (r.1, some page) else (anonRelease r.1 ⟨mapping, offset, page⟩, none)

/-! ## All address spaces -/

/-- `mmap_area_matches_inode`. -/
def mmapAreaMatchesInode (area : VmArea) (inode : Nat) : Bool :=
  area.origin = .fileBacked && (area.file.map VfsFile.inode = some inode)

/-- The address where `mmap_truncate_process` starts in an area, if it does anything there. -/
def truncateStart (area : VmArea) (size : Nat) : Option Nat :=
  if size ≤ area.offset then some area.start
  else if size - area.offset ≥ area.finish - area.start then none
  else some (area.start + pgrounddown (size - area.offset))

/-- `mmap_truncate_process` of some area unmaps the leaf. -/
def Machine.truncated (inode size : Nat) (pte : Pte Proc) : Bool :=
  (s.vmas.sets pte.proc).any fun area =>
    mmapAreaMatchesInode area inode && (truncateStart area size).any (fun start =>
      start ≤ pte.va && pte.va < area.finish)

/-- `mmap_file_truncate`; nothing while `page_cache_truncate` has to wait. -/
def mmapFileTruncate (inode oldSize size : Nat) : Option (Machine Proc) :=
  let s := if size < oldSize then (s.ptes.filter (s.truncated inode size)).foldl unmapPte s else s
  pageCacheTruncate s inode oldSize size

/-- `mmap_file_page_address`. -/
def mmapFilePageAddress (area : VmArea) (inode offset : Nat) : Option Nat :=
  if !mmapAreaMatchesInode area inode || offset < area.offset ||
      offset - area.offset ≥ area.finish - area.start then none
  else some (area.start + (offset - area.offset))

/-- The leaf maps the page in an area where `mmap_reclaim_file_scan` looks for it. -/
def Machine.mapsFilePage (inode offset : Nat) (page : Page) (p : VmArea → Bool) (pte : Pte Proc) : Bool :=
  pte.page = page && (s.vmas.sets pte.proc).any fun area =>
    p area && mmapFilePageAddress area inode offset = some pte.va

/-- `mmap_reclaim_file_page`: whether a shared writable mapping stands in the way, else the page is unmapped
    everywhere. -/
def mmapReclaimFilePage (inode offset : Nat) (page : Page) : Machine Proc × Bool :=
  if s.ptes.any (s.mapsFilePage inode offset page fun area =>
      areaShared area && area.protection &&& linuxProtWrite ≠ 0) then (s, true)
  else ((s.ptes.filter (s.mapsFilePage inode offset page fun _ => true)).foldl unmapPte s, false)

/-- `MMAP_RECLAIM_BATCH`. -/
def mmapReclaimBatch : Nat := 64

/-- The pages of a full batch are put; how many of them this frees. -/
def reclaimBatch (s : Machine Proc) : List Page → Machine Proc × Nat
  | [] => (s, 0)
  | page :: rest =>
    let n := if pallocRefcount s page = 1 then 1 else 0
    let r := reclaimBatch (pfree s page) rest
    (r.1, n + r.2)

/-- The loop of `mmap_reclaim_anonymous` over the leaves it may drop. -/
def mmapReclaimAnonymousLoop (target : Nat) (s : Machine Proc) (batch : List Page) (reclaimed : Nat) :
    List (Pte Proc) → Machine Proc
  | [] => (reclaimBatch s batch).1
  | pte :: rest =>
    if reclaimed ≥ target then (reclaimBatch s batch).1
    else
      let s := s.clearPte pte
      if (pte.page :: batch).length < mmapReclaimBatch then
        mmapReclaimAnonymousLoop target s (pte.page :: batch) reclaimed rest
      else
        let r := reclaimBatch s (pte.page :: batch)
        mmapReclaimAnonymousLoop target r.1 [] (reclaimed + r.2) rest

variable (proc : Proc)

/-- `mmap_reclaim_anonymous`, for a process with one thread. -/
def mmapReclaimAnonymous (target : Nat) : Machine Proc :=
  let droppable := fun (pte : Pte Proc) =>
    pte.proc = proc && !pte.d && (vmaFind pte.va (s.vmas.sets proc)).any fun area =>
      area.origin = .anonymous && area.backing.isNone && areaPrivate area && area.usage ≠ .elf
  if target = 0 then s
  else
    mmapReclaimAnonymousLoop target s [] 0
      ((s.ptes.filter droppable).insertionSort fun a b => a.va ≤ b.va)

/-! ## Page faults -/

/-- `enum mmap_fault_access`. -/
inductive FaultAccess
  | read
  | write
  | exec
  | populate
deriving DecidableEq

/-- `enum mmap_fault_result`. -/
inductive FaultResult
  | ok
  | maperr
  | accerr
  | buserr
  | nomem
  | retry
deriving DecidableEq

/-- `mmap_pte_permissions`. -/
def mmapPtePermissions (protection : Nat) : Perm :=
  if protection = 0 then ⟨true, false, false, false, false⟩
  else
    { r := protection &&& (linuxProtRead ||| linuxProtWrite) ≠ 0
      w := protection &&& linuxProtWrite ≠ 0
      x := protection &&& linuxProtExec ≠ 0
      u := true
      cow := false }

/-- `mmap_access_allowed`. -/
def mmapAccessAllowed (area : VmArea) : FaultAccess → Bool
  | .populate => area.protection ≠ 0
  | .exec => area.protection &&& linuxProtExec ≠ 0
  | .write => area.protection &&& linuxProtWrite ≠ 0
  | .read => area.protection &&& linuxProtRead ≠ 0

/-- A page for a fault, and whether the page cache has it. -/
structure FaultPage where
  page : Page
  cached : Bool

/-- `palloc_zero`, once more if something could be reclaimed. -/
def pallocReclaim : Machine Proc × Option Page :=
  let r := pallocZero s
  if r.2.isSome then r
  else
    let reclaimed := pageCacheReclaim r.1 1
    if reclaimed.2 = 0 then (reclaimed.1, none) else pallocZero reclaimed.1

/-- The end of `mmap_file_fault`: a private copy of `bytes` bytes of the file. -/
def mmapFilePrivate (area : VmArea) (file : VfsFile) (offset bytes : Nat) :
    Machine Proc × Except FaultResult FaultPage :=
  if areaShared area then (s, .error .nomem)
  else
    match (pallocReclaim s).2 with
    | none => ((pallocReclaim s).1, .error .nomem)
    | some page =>
      -- `vfs_file_pread` writes the cached pages of the file back first
      let s := (pallocReclaim s).1
      let r := if s.canRead file then pageCacheWritebackInode s file.inode else (s, false)
      let read := outcome r.1
      if !r.2 || !read.2 || offset + bytes > (r.1.files file.inode).size then
        let nomem := outcome read.1
        (pfree nomem.1 page, .error (if nomem.2 || area.usage = .elf then .nomem else .buserr))
      else
        (read.1.setData page fun i =>
          if i < bytes then (read.1.files file.inode).data (offset + i) else 0, .ok ⟨page, false⟩)

/-- `mmap_file_fault`, for an area with this file. -/
def mmapFileFault (area : VmArea) (file : VfsFile) (pageAddress : Nat) :
    Machine Proc × Except FaultResult FaultPage :=
  let relative := pageAddress - area.start
  let fileOffset := area.offset + relative
  let size := (s.files file.inode).size
  if area.usage = .elf ∧ relative ≥ area.fileLength then
    ((pallocZero s).1,
      match (pallocZero s).2 with
      | some page => .ok ⟨page, false⟩
      | none => .error .nomem)
  else if area.usage ≠ .elf ∧ fileOffset ≥ size then (s, .error .buserr)
  else
    let bytes := min pgsize (if area.usage = .elf then area.fileLength - relative else size - fileOffset)
    if area.usage = .mmap || bytes = pgsize then
      let r := pageCacheGet s file fileOffset bytes
      match r.2 with
      | .ok page => (r.1, .ok ⟨page, true⟩)
      | .retry => (r.1, .error .retry)
      | .io => (r.1, .error (if area.usage = .elf then .nomem else .buserr))
      | .error => mmapFilePrivate r.1 area file fileOffset bytes
    else mmapFilePrivate s area file fileOffset bytes

/-- Where the page for a fault comes from. -/
def mmapFaultPage (area : VmArea) (pageAddress : Nat) : Machine Proc × Except FaultResult FaultPage :=
  match area.origin, area.file, area.backing with
  | .fileBacked, some file, _ => mmapFileFault s area file pageAddress
  | .anonymous, _, some backing =>
    let r := anonMappingGetPage s backing (area.offset + pageAddress - area.start)
    (r.1,
      match r.2 with
      | some page => .ok ⟨page, false⟩
      | none => .error .nomem)
  | _, _, _ =>
    ((pallocReclaim s).1,
      match (pallocReclaim s).2 with
      | some page => .ok ⟨page, false⟩
      | none => .error .nomem)

/-- The marks a cached page gets before it is mapped, and the permissions it is mapped with: a private mapping
    gets it copy-on-write, a shared one writable only for a write access. Nothing if a mark fails. -/
def mmapFaultMarks (area : VmArea) (file : VfsFile) (fileOffset : Nat) (access : FaultAccess) :
    Machine Proc × Option Perm :=
  let permissions := mmapPtePermissions area.protection
  let permissions :=
    if areaPrivate area && permissions.w then { permissions with w := false, cow := true } else permissions
  let r :=
    if area.protection &&& linuxProtExec ≠ 0 then pageCacheMarkExecutable s file fileOffset else (s, true)
  if !r.2 then (r.1, none)
  else if areaShared area && permissions.w then
    if access ≠ .write then (r.1, some { permissions with w := false })
    else
      let m := vfsFileMarkSharedDirty r.1 file fileOffset
      (m.1, if m.2 then some permissions else none)
  else (r.1, some permissions)

/-- The permissions that the page found is mapped with. -/
def mmapFaultPermissions (area : VmArea) (pageAddress : Nat) (access : FaultAccess) (page : FaultPage) :
    Machine Proc × Option Perm :=
  match page.cached, area.file with
  | true, some file => mmapFaultMarks s area file (area.offset + pageAddress - area.start) access
  | _, _ => (s, some (mmapPtePermissions area.protection))

/-- The page found is mapped. -/
def mmapFaultMap (area : VmArea) (pageAddress : Nat) (access : FaultAccess) (page : FaultPage) :
    Machine Proc × FaultResult :=
  let r := mmapFaultPermissions s area pageAddress access page
  match r.2 with
  | none => (pfree r.1 page.page, .nomem)
  | some permissions =>
    let m := vmMap r.1 proc pageAddress page.page permissions false
    if m.2 then (m.1, .ok) else (pfree m.1 page.page, .nomem)

/-- `mmap_handle_fault` at an address with a valid leaf. -/
def mmapFaultMapped (s : Machine Proc) (area : VmArea) (pte : Pte Proc) (access : FaultAccess) :
    Machine Proc × FaultResult :=
  match area.file with
  | some file =>
    if access = .write && pte.perm.u && !pte.perm.w && area.origin = .fileBacked && areaShared area &&
        area.protection &&& linuxProtWrite ≠ 0 then
      let r := vfsFileMarkSharedDirty s file (area.offset + pte.va - area.start)
      if r.2 then (r.1.setPte pte { pte with perm := { pte.perm with w := true } }, .ok)
      else (r.1, .nomem)
    else resolve
  | none => resolve
where
  resolve : Machine Proc × FaultResult :=
    let r := if access = .write then vmResolveCow s pte.proc pte.va else (s, 0)
    if r.2 > 0 then (r.1, .ok)
    else if r.2 < 0 then (r.1, .nomem)
    else
      let allowed :=
        match access with
        | .read => pte.perm.r
        | .write => pte.perm.w
        | .exec => pte.perm.x
        | .populate => pte.perm.r || pte.perm.w || pte.perm.x
      (r.1, if pte.perm.u && allowed then .ok else .accerr)

/-- One pass of `mmap_handle_fault`. -/
def mmapHandleFault (address : Nat) (access : FaultAccess) : Machine Proc × FaultResult :=
  if address ≥ maxva then (s, .maperr)
  else
    match vmaFind address (s.vmas.sets proc) with
    | none => (s, .maperr)
    | some area =>
      if !mmapAccessAllowed area access then (s, .accerr)
      else
        match s.findPte proc (pgrounddown address) with
        | some pte => mmapFaultMapped s area pte access
        | none =>
          let r := mmapFaultPage s area (pgrounddown address)
          match r.2 with
          | .error result => (r.1, result)
          | .ok page => mmapFaultMap r.1 proc area (pgrounddown address) access page

/-! ## System calls -/

/-- The error numbers of `linux_uapi.h` that occur here. -/
def linuxEperm : Int := 1

@[inherit_doc linuxEperm] def linuxEio : Int := 5

@[inherit_doc linuxEperm] def linuxEbadf : Int := 9

@[inherit_doc linuxEperm] def linuxEnomem : Int := 12

@[inherit_doc linuxEperm] def linuxEacces : Int := 13

@[inherit_doc linuxEperm] def linuxEexist : Int := 17

@[inherit_doc linuxEperm] def linuxEinval : Int := 22

@[inherit_doc linuxEperm] def linuxEoverflow : Int := 75

/-- The flags of `mmap`. -/
def linuxMapFixed : Nat := 0x10

@[inherit_doc linuxMapFixed] def linuxMapAnonymous : Nat := 0x20

@[inherit_doc linuxMapFixed] def linuxMapNoreserve : Nat := 0x4000

@[inherit_doc linuxMapFixed] def linuxMapPopulate : Nat := 0x8000

@[inherit_doc linuxMapFixed] def linuxMapStack : Nat := 0x20000

@[inherit_doc linuxMapFixed] def linuxMapFixedNoreplace : Nat := 0x100000

/-- All of them, with `LINUX_MAP_SHARED` and `LINUX_MAP_PRIVATE`. -/
def linuxMapKnown : Nat :=
  linuxMapShared ||| linuxMapPrivate ||| linuxMapFixed ||| linuxMapAnonymous ||| linuxMapNoreserve |||
    linuxMapPopulate ||| linuxMapStack ||| linuxMapFixedNoreplace

/-- `USER_MMAP_TOP`. -/
def userMmapTop : Nat := userStackTop - 16 * 1024 * 1024 - 64 * pgsize - pgsize

/-- `mmap_protection_valid`. -/
def mmapProtectionValid (protection : Nat) : Bool := protection < 8

/-- `mmap_protection_wx`. -/
def mmapProtectionWx (protection : Nat) : Bool :=
  protection &&& linuxProtWrite ≠ 0 && protection &&& linuxProtExec ≠ 0

/-- `mmap_round_length`. -/
def mmapRoundLength (length : Nat) : Option Nat :=
  if length = 0 || length > uint64Max - (pgsize - 1) then none else some (pgroundup length)

/-- `mmap_unmap_pages`. -/
def mmapUnmapPages (start length : Nat) : Machine Proc :=
  pageCacheReclaimUnmapped (vmUnmapRange s proc start length)

/-- The arguments of `mmap`, and what else the call meets: the file behind `fd`, the end of the heap, the
    place `vma_find_gap` finds, the new `struct anon_mapping`, and the allocations of the VMA calls. -/
structure MmapArgs where
  address : Nat
  length : Nat
  protection : Nat
  flags : Nat
  file : Option VfsFile
  offset : Nat
  brk : Nat
  gap : Option Nat
  mapping : Option Nat
  unmap : Allocation
  insert : Allocation

/-- `mmap_file_validate`; all files are regular. -/
def mmapFileValidate (file : VfsFile) (a : MmapArgs) (length : Nat) : Option Int :=
  if !s.canRead file then some linuxEacces
  else if a.flags &&& 0xf = linuxMapShared && a.protection &&& linuxProtWrite ≠ 0 && !s.canWrite file then
    some linuxEacces
  else if length > uint64Max - a.offset then some linuxEoverflow
  else none

/-- Where the mapping goes: a fixed one takes the place of what is there. -/
def mmapPlace (a : MmapArgs) (length : Nat) : Machine Proc × Except Int Nat :=
  if a.flags &&& (linuxMapFixed ||| linuxMapFixedNoreplace) ≠ 0 then
    if a.address < pgsize || a.address > userMmapTop || length > userMmapTop - a.address then
      (s, .error (-linuxEnomem))
    else if a.flags &&& linuxMapFixedNoreplace ≠ 0 then
      if !vmaRangeFree (s.vmas.sets proc) a.address (a.address + length) then (s, .error (-linuxEexist))
      else (s, .ok a.address)
    else
      let r := s.vma (.unmap proc a.unmap a.address (a.address + length))
      if r.2 < 0 then (r.1, .error (-linuxEnomem))
      else (mmapUnmapPages r.1 proc a.address length, .ok a.address)
  else
    let low := max pgsize (pgroundup a.brk)
    let hint := pgrounddown a.address
    if low ≥ userMmapTop || length > userMmapTop - low then (s, .error (-linuxEnomem))
    else if hint ≥ low && hint ≤ userMmapTop - length &&
        vmaRangeFree (s.vmas.sets proc) hint (hint + length) then (s, .ok hint)
    else
      match a.gap with
      | none => (s, .error (-linuxEnomem))
      | some start => (s, .ok start)

/-- The area goes in, with a new mapping behind it if it is shared and anonymous: `anon_mapping_create` takes
    a reference that `sys_linux_mmap` gives back at the end. -/
def mmapInsert (a : MmapArgs) (length start : Nat) : Machine Proc × Int :=
  if a.flags &&& linuxMapAnonymous ≠ 0 then
    if a.flags &&& 0xf = linuxMapShared then
      match a.mapping with
      | none => (s, -linuxEnomem)
      | some id =>
        let backing : VmaBacking := ⟨id, true, true⟩
        let created := s.vmas.refs.get [.backing backing]
        let w := (⟨created, s.vmas.sets⟩ : VmaWorld Proc).step
          (.insertBacked proc a.insert start (start + length) a.protection (a.flags &&& 0xf) .mmap
            (some backing) 0)
        (anonMappingPut { s with vmas := ⟨w.1.refs.put [.backing backing], w.1.sets⟩ },
          if w.2 < 0 then -linuxEnomem else start)
    else
      let r := s.vma (.insert proc a.insert start (start + length) a.protection (a.flags &&& 0xf)
        .anonymous .mmap none a.offset)
      (r.1, if r.2 < 0 then -linuxEnomem else start)
  else
    let r := s.vma (.insert proc a.insert start (start + length) a.protection (a.flags &&& 0xf)
      .fileBacked .mmap a.file a.offset)
    (r.1, if r.2 < 0 then -linuxEnomem else start)

/-- A new `struct anon_mapping` is not one that is in use, and is allocated before anything else happens. -/
def mmapMappingMissing (a : MmapArgs) : Bool :=
  a.flags &&& linuxMapAnonymous ≠ 0 && a.flags &&& 0xf = linuxMapShared &&
    !(a.mapping.any fun id => s.vmas.refs (.backing ⟨id, true, true⟩) = 0)

/-- `sys_linux_mmap` without the populating, which is a page fault for each page. -/
def sysLinuxMmap (a : MmapArgs) : Machine Proc × Int :=
  match mmapRoundLength a.length with
  | none => (s, -linuxEinval)
  | some length =>
    if !mmapProtectionValid a.protection || a.offset % pgsize ≠ 0 ||
        (a.flags &&& 0xf ≠ linuxMapPrivate && a.flags &&& 0xf ≠ linuxMapShared) ||
        a.flags &&& linuxMapKnown ≠ a.flags ||
        (a.flags &&& linuxMapFixed ≠ 0 && a.flags &&& linuxMapFixedNoreplace ≠ 0) then
      (s, -linuxEinval)
    else if mmapProtectionWx a.protection then (s, -linuxEperm)
    else if a.flags &&& (linuxMapFixed ||| linuxMapFixedNoreplace) ≠ 0 && a.address % pgsize ≠ 0 then
      (s, -linuxEinval)
    else if mmapMappingMissing s a then (s, -linuxEnomem)
    else
      let refused : Option Int :=
        if a.flags &&& linuxMapAnonymous ≠ 0 then none
        else
          match a.file with
          | none => some (-linuxEbadf)
          | some file => (mmapFileValidate s file a length).map fun e => -e
      match refused with
      | some error => (s, error)
      | none =>
        let place := mmapPlace s proc a length
        match place.2 with
        | .error error => (place.1, error)
        | .ok start => mmapInsert place.1 proc a length start

/-- `mmap_shared_write_allowed`. -/
def mmapSharedWriteAllowed (start finish : Nat) : Bool :=
  (s.vmas.sets proc).all fun area =>
    area.finish ≤ start || area.start ≥ finish ||
      !(area.origin = .fileBacked && areaShared area && !area.file.all s.canWrite)

/-- `sys_linux_mprotect`. -/
def sysLinuxMprotect (address length protection : Nat) (startOutcome endOutcome : Allocation) :
    Machine Proc × Int :=
  if !mmapProtectionValid protection || address % pgsize ≠ 0 then (s, -linuxEinval)
  else if mmapProtectionWx protection then (s, -linuxEperm)
  else if length = 0 then (s, 0)
  else
    match mmapRoundLength length with
    | none => (s, -linuxEnomem)
    | some length =>
      let finish := address + length
      if address > userStackTop || length > userStackTop - address then (s, -linuxEnomem)
      else if !vmaRangeMapped (s.vmas.sets proc) address finish then (s, -linuxEnomem)
      else if protection &&& linuxProtWrite ≠ 0 && !mmapSharedWriteAllowed s proc address finish then
        (s, -linuxEacces)
      else
        let r := s.vma (.protect proc startOutcome endOutcome address finish protection)
        if r.2 < 0 then (r.1, -linuxEnomem)
        else
          let p := vmProtectUserRange r.1 proc address finish (mmapPtePermissions protection)
          if p.2 then (p.1, 0) else ({ p.1 with panic := some .protectionMismatch }, 0)

/-- The loop of `sys_linux_msync` over the areas of the range. -/
def msyncLoop (s : Machine Proc) : List VmArea → Machine Proc × Int
  | [] => (s, 0)
  | area :: rest =>
    match area.origin, area.file with
    | .fileBacked, some file =>
      if areaShared area then
        let r := pageCacheWritebackInode s file.inode
        if r.2 then msyncLoop r.1 rest else (r.1, -linuxEio)
      else msyncLoop s rest
    | _, _ => msyncLoop s rest

/-- `sys_linux_msync`; `LINUX_MS_ASYNC` is 1, `LINUX_MS_SYNC` is 4. -/
def sysLinuxMsync (address length flags : Nat) : Machine Proc × Int :=
  match mmapRoundLength length with
  | none => (s, -linuxEinval)
  | some length =>
    let finish := address + length
    if address % pgsize ≠ 0 || address > userStackTop || length > userStackTop - address ||
        flags ≥ 8 || (flags &&& 1 ≠ 0 && flags &&& 4 ≠ 0) then (s, -linuxEinval)
    else if !vmaRangeMapped (s.vmas.sets proc) address finish then (s, -linuxEnomem)
    else
      msyncLoop s ((s.vmas.sets proc).filter fun area => address < area.finish ∧ area.start < finish)

/-- `sys_linux_munmap`. -/
def sysLinuxMunmap (address length : Nat) (outcome : Allocation) : Machine Proc × Int :=
  match mmapRoundLength length with
  | none => (s, -linuxEinval)
  | some length =>
    if address % pgsize ≠ 0 || address > userStackTop || length > userStackTop - address then
      (s, -linuxEinval)
    else
      let r := s.vma (.unmap proc outcome address (address + length))
      if r.2 < 0 then (r.1, -linuxEnomem) else (mmapUnmapPages r.1 proc address length, 0)

/-- `sys_linux_brk`, with the fields `brk`, `brk_start` and `mmap_top` of the process. -/
def sysLinuxBrk (brk brkStart mmapTop requested : Nat) (outcome : Allocation) : Machine Proc × Nat :=
  let oldEnd := pgroundup brk
  let newEnd := pgroundup requested
  if requested < brkStart || requested > mmapTop || requested > uint64Max - (pgsize - 1) then (s, brk)
  else if newEnd > oldEnd then
    if !vmaRangeFree (s.vmas.sets proc) oldEnd newEnd then (s, brk)
    else
      let r := s.vma (.insert proc outcome oldEnd newEnd (linuxProtRead ||| linuxProtWrite) linuxMapPrivate
        .anonymous .heap none 0)
      (r.1, if r.2 < 0 then brk else requested)
  else if newEnd < oldEnd then
    let r := s.vma (.unmap proc outcome newEnd oldEnd)
    if r.2 < 0 then (r.1, brk) else (vmUnmapRange r.1 proc newEnd (oldEnd - newEnd), requested)
  else (s, requested)

/-- A segment of `elf_image_map` that has its pages for itself. -/
def elfImageMap (outcome : Allocation) (e : ElfArgs) : Machine Proc :=
  if (vmaFind e.start (s.vmas.sets proc)).isSome then s
  else (s.vma (.insertElfFile proc outcome outcome e)).1

/-! ## Fork and exit -/

/-- The process has no address space yet. -/
def Machine.blank : Bool :=
  !s.hasTable proc 2 0 && (s.vmas.sets proc).isEmpty && s.ptes.all fun pte => pte.proc ≠ proc

/-- `process_free`. -/
def processFree : Machine Proc :=
  processFreepagedir (s.vma (.destroy proc)).1 proc

/-- The memory side of `process_fork_common`: `process_alloc`, `mmap_process_fork`, and `process_free` when
    that fails. -/
def processFork (old new : Proc) (outcome : Nat → Allocation) : Machine Proc × Bool :=
  if old = new || !s.blank new then (s, false)
  else
    let r := processPagedir s new
    if !r.2 then r
    else
      let copy := vmCopy r.1 old new
      if !copy.2 then
        -- `vm_free_user` in `vm_copy` may have stopped the kernel
        if copy.1.panic.isSome then copy else (processFree copy.1 new, false)
      else
        let clone := copy.1.vma (.clone new old outcome)
        if clone.2 < 0 then (processFree clone.1 new, false) else (clone.1, true)

/-- `process_release_resources`, of an exiting process. -/
def processReleaseResources : Machine Proc :=
  vmFreeUser (unmapSigreturn (s.vma (.destroy proc)).1 proc) proc

/-! ## Pins -/

/-- The round of `user_copy_va2pa_pinned` that succeeds, for reading (`PTE_R`) or writing (`PTE_W`). -/
def userCopyPin (va : Nat) (write : Bool) : Machine Proc :=
  match s.findPte proc (pgrounddown va) with
  | none => s
  | some pte =>
    if !pte.perm.u || !(if write then pte.perm.w else pte.perm.r) then s
    else
      let s := if write then s.setPte pte { pte with d := true } else s
      let r := pallocGet s pte.page
      if r.2 then { r.1 with pins := pte.page :: r.1.pins } else r.1

/-- The copy is done. -/
def userCopyUnpin (page : Page) : Machine Proc :=
  if page ∈ s.pins then pfree { s with pins := s.pins.erase page } page else s

end Caffeinix.Mm
