import Caffeinix.Riscv

/-!
# `Vma.Set` — the memory areas of an address space (`kernel/vma.c`)

A VMA set is the list of its areas. Every operation works on a `VmaState`: the list together with the
reference counters that areas hold. Where the code can run out of memory, or `vfs_exec_mapping_get` can refuse
a file that is open for writing, the outcome is a parameter (`Allocation`), one for each `vma_allocate` the
call makes. Sets are never null here, and addresses are `Nat`s below `2^64`.
-/

namespace Caffeinix.Vma

/-- `LINUX_PROT_WRITE`, `LINUX_PROT_EXEC`, `LINUX_MAP_PRIVATE`. -/
def linuxProtWrite : Nat := 2

@[inherit_doc linuxProtWrite] def linuxProtExec : Nat := 4

@[inherit_doc linuxProtWrite] def linuxMapPrivate : Nat := 2

/-- `enum vma_origin`. -/
inductive VmaOrigin
  | anonymous
  | fileBacked
deriving DecidableEq

/-- `enum vma_usage`. -/
inductive VmaUsage
  | elf
  | heap
  | stack
  | mmap
deriving DecidableEq

/-- `struct vfs_file`: which file object, and the inode it was opened on. -/
structure VfsFile where
  id : Nat
  inode : Nat
deriving DecidableEq

/-- `struct vma_backing`: which object, and whether its two operations are there. -/
structure VmaBacking where
  id : Nat
  hasGet : Bool
  hasPut : Bool
deriving DecidableEq

/-- `struct vm_area`. -/
structure VmArea where
  start : Nat
  finish : Nat
  offset : Nat
  fileLength : Nat
  protection : Nat
  flags : Nat
  origin : VmaOrigin
  usage : VmaUsage
  file : Option VfsFile
  backing : Option VmaBacking
deriving DecidableEq

/-- The counters an area keeps up: `file->ref`, the inode's `exec_open_count`, and the count behind
    `backing->get` and `backing->put`. -/
inductive RefKey
  | file (f : VfsFile)
  | exec (inode : Nat)
  | backing (b : VmaBacking)
deriving DecidableEq

/-- The counters. -/
abbrev Refs := RefKey → Nat

def Refs.get (refs : Refs) (keys : List RefKey) : Refs := fun k => refs k + keys.count k

def Refs.put (refs : Refs) (keys : List RefKey) : Refs := fun k => refs k - keys.count k

/-- What one `vma_allocate` meets: whether `malloc` and `vfs_exec_mapping_get` succeed. -/
structure Allocation where
  memory : Bool
  exec : Bool

/-- The list of areas and the counters. -/
structure VmaState where
  refs : Refs
  areas : List VmArea

/-- The counters `vma_allocate` takes for an area with this file, usage and backing, and `vma_release`
    gives back: an `ELF` mapping holds its file (`vfs_file_hold`) and counts as an executor of the inode. -/
def areaRefs (file : Option VfsFile) (usage : VmaUsage) (backing : Option VmaBacking) : List RefKey :=
  (match file with
    | some f => if usage = .elf then [.exec f.inode, .file f] else [.file f]
    | none => []) ++
  (match backing with
    | some b => [.backing b]
    | none => [])

def VmArea.refs (a : VmArea) : List RefKey := areaRefs a.file a.usage a.backing

variable (outcome : Allocation)

/-- `vma_allocate` for an area with the given fields. -/
def vmaAllocate (refs : Refs) (area : VmArea) : Option Refs :=
  if !outcome.memory then none
  else if area.file.isSome && area.usage == .elf && !outcome.exec then none
  else some (refs.get area.refs)

/-- `vma_release`. -/
def vmaRelease (refs : Refs) (area : VmArea) : Refs := refs.put area.refs

/-- The area `vma_allocate_split(area, start)` asks for: the part from `start` on. -/
def VmArea.tail (area : VmArea) (start : Nat) : VmArea :=
  let delta := start - area.start
  { area with
    start := start
    offset := if area.origin = .fileBacked ∨ area.backing.isSome then area.offset + delta else area.offset
    fileLength :=
      if area.origin = .fileBacked then (if area.fileLength > delta then area.fileLength - delta else 0)
      else area.fileLength }

/-- The part kept below `finish`: the end moves down and `file_length` with it. -/
def VmArea.trim (area : VmArea) (finish : Nat) : VmArea :=
  { area with
    finish := finish
    fileLength :=
      if area.fileLength > finish - area.start then finish - area.start else area.fileLength }

/-- `vma_allocate_split`. -/
def vmaAllocateSplit (refs : Refs) (area : VmArea) (start : Nat) : Option (Refs × VmArea) :=
  (vmaAllocate outcome refs (area.tail start)).map fun refs => (refs, area.tail start)

/-! ## Merging -/

/-- `left->offset + left->end - left->start`. -/
def VmArea.nextOffset (left : VmArea) : Nat := (left.offset + left.finish - left.start) % 2 ^ 64

/-- `vma_can_merge`. -/
def vmaCanMerge (left right : VmArea) : Bool :=
  if left.finish ≠ right.start ∨ left.protection ≠ right.protection ∨ left.flags ≠ right.flags ∨
      left.origin ≠ right.origin ∨ left.usage ≠ right.usage ∨ left.file ≠ right.file ∨
      left.backing ≠ right.backing then false
  else if left.origin = .fileBacked ∧ left.fileLength ≠ left.finish - left.start then false
  else if left.origin = .fileBacked ∧
      (left.nextOffset < left.offset ∨ left.nextOffset ≠ right.offset) then false
  else if left.backing.isSome ∧
      (left.nextOffset < left.offset ∨ left.nextOffset ≠ right.offset) then false
  else true

/-- The area `vma_merge_pair` leaves; the caller releases `right`. -/
def vmaMergePair (left right : VmArea) : VmArea :=
  { left with
    finish := right.finish
    fileLength :=
      if left.origin = .fileBacked then left.fileLength + right.fileLength else left.fileLength }

/-- The loop of `vma_merge_all`, standing at `area`. -/
def vmaMergeFrom (refs : Refs) (area : VmArea) : List VmArea → VmaState
  | [] => ⟨refs, [area]⟩
  | next :: rest =>
    if vmaCanMerge area next then vmaMergeFrom (vmaRelease refs next) (vmaMergePair area next) rest
    else
      let s := vmaMergeFrom refs next rest
      ⟨s.refs, area :: s.areas⟩

variable (s : VmaState)

/-- `vma_merge_all`. -/
def vmaMergeAll : VmaState :=
  match s.areas with
  | [] => s
  | area :: rest => vmaMergeFrom s.refs area rest

/-! ## Whole sets -/

/-- `vma_set_destroy`. -/
def vmaSetDestroy : VmaState := ⟨s.areas.foldl vmaRelease s.refs, []⟩

/-! ## Lookups -/

/-- `vma_find`. -/
def vmaFind (address : Nat) : List VmArea → Option VmArea
  | [] => none
  | area :: rest =>
    if address < area.start then none
    else if address < area.finish then some area
    else vmaFind address rest

/-- The list with the area `vma_find(address)` returns replaced. -/
def vmaReplace (address : Nat) (f : VmArea → List VmArea) : List VmArea → List VmArea
  | [] => []
  | area :: rest =>
    if address < area.start then area :: rest
    else if address < area.finish then f area ++ rest
    else area :: vmaReplace address f rest

def vmaRangeFreeLoop (start finish : Nat) : List VmArea → Bool
  | [] => true
  | area :: rest =>
    if finish ≤ area.start then true
    else if start < area.finish then false
    else vmaRangeFreeLoop start finish rest

/-- `vma_range_free`. -/
def vmaRangeFree (areas : List VmArea) (start finish : Nat) : Bool :=
  if start ≥ finish then false else vmaRangeFreeLoop start finish areas

def vmaRangeMappedLoop (finish : Nat) : Nat → List VmArea → Bool
  | _, [] => false
  | cursor, area :: rest =>
    if area.finish ≤ cursor then vmaRangeMappedLoop finish cursor rest
    else if area.start > cursor then false
    else if area.finish ≥ finish then true
    else vmaRangeMappedLoop finish area.finish rest

/-- `vma_range_mapped`. -/
def vmaRangeMapped (areas : List VmArea) (start finish : Nat) : Bool :=
  if start ≥ finish then false else vmaRangeMappedLoop finish start areas

/-! ## Inserting -/

/-- The argument check of `vma_insert_file_length`. -/
def vmaInsertRefused (new : VmArea) : Bool :=
  new.start ≥ new.finish || new.start % pgsize ≠ 0 || new.finish % pgsize ≠ 0 ||
  new.finish > maxva || new.offset % pgsize ≠ 0 || new.fileLength > new.finish - new.start ||
  ((new.origin == .fileBacked || new.backing.isSome) &&
    new.finish - new.start > uint64Max - new.offset) ||
  (new.origin == .fileBacked) != new.file.isSome ||
  (new.backing.isSome && (new.origin != .anonymous || new.file.isSome)) ||
  (new.origin != .fileBacked && new.fileLength ≠ 0)

/-- The search of `vma_insert_file_length` for its place: the areas before and after it, or nothing when an
    area is in the way. -/
def vmaInsertPlace (start finish : Nat) : List VmArea → Option (List VmArea × List VmArea)
  | [] => some ([], [])
  | current :: rest =>
    if finish ≤ current.start then some ([], current :: rest)
    else if start < current.finish then none
    else (vmaInsertPlace start finish rest).map fun p => (current :: p.1, p.2)

/-- The new area merged with its successor if they agree. -/
def vmaLinkNext (refs : Refs) (before : List VmArea) (area : VmArea) : List VmArea → VmaState
  | current :: rest =>
    if vmaCanMerge area current then
      ⟨vmaRelease refs current, before ++ vmaMergePair area current :: rest⟩
    else ⟨refs, before ++ area :: current :: rest⟩
  | [] => ⟨refs, before ++ [area]⟩

/-- Linking the new area in: merged with its predecessor if they agree, then with its successor. -/
def vmaLink (refs : Refs) (before : List VmArea) (area : VmArea) (after : List VmArea) : VmaState :=
  match before.getLast? with
  | some current =>
    if vmaCanMerge current area then
      vmaLinkNext (vmaRelease refs area) before.dropLast (vmaMergePair current area) after
    else vmaLinkNext refs before area after
  | none => vmaLinkNext refs before area after

/-- `vma_insert_file_length`; the ten arguments are the fields of `new`. -/
def vmaInsertFileLength (new : VmArea) : VmaState × Int :=
  if vmaInsertRefused new then (s, -1)
  else
    match vmaInsertPlace new.start new.finish s.areas with
    | none => (s, -1)
    | some (before, after) =>
      match vmaAllocate outcome s.refs new with
      | none => (s, -1)
      | some refs => (vmaLink refs before new after, 0)

/-- `vma_insert`. -/
def vmaInsert (start finish protection flags : Nat) (origin : VmaOrigin) (usage : VmaUsage)
    (file : Option VfsFile) (offset : Nat) : VmaState × Int :=
  vmaInsertFileLength outcome s
    ⟨start, finish, offset, if origin = .fileBacked then finish - start else 0, protection, flags, origin,
      usage, file, none⟩

/-- `vma_insert_backed`. -/
def vmaInsertBacked (start finish protection flags : Nat) (usage : VmaUsage) (backing : Option VmaBacking)
    (offset : Nat) : VmaState × Int :=
  match backing with
  | none => (s, -1)
  | some b =>
    if !b.hasGet || !b.hasPut then (s, -1)
    else
      vmaInsertFileLength outcome s
        ⟨start, finish, offset, 0, protection, flags, .anonymous, usage, none, some b⟩

/-- The arguments of `vma_insert_elf_file`. -/
structure ElfArgs where
  start : Nat
  finish : Nat
  protection : Nat
  file : Option VfsFile
  offset : Nat
  fileLength : Nat

/-- The argument check of `vma_insert_elf_file`. -/
def vmaElfRefused (e : ElfArgs) : Bool :=
  e.file.isNone || e.start ≥ e.finish || e.start % pgsize ≠ 0 || e.finish % pgsize ≠ 0 ||
  e.finish > maxva || e.offset % pgsize ≠ 0 || e.finish - e.start > uint64Max - e.offset ||
  e.fileLength > e.finish - e.start

/-- The overlapped area is one the segment cannot share its first page with. -/
def vmaElfOverlapRefused (overlap : VmArea) (e : ElfArgs) : Bool :=
  -- `overlap_end < start` is never true: `start` is below `MAXVA`
  let overlapEnd := e.start + pgsize
  overlapEnd > e.finish || overlap.finish ≠ overlapEnd || overlap.usage != .elf ||
  overlap.flags ≠ linuxMapPrivate ||
  ((overlap.protection ||| e.protection) &&& linuxProtWrite ≠ 0 &&
    (overlap.protection ||| e.protection) &&& linuxProtExec ≠ 0)

/-- What becomes of the shared page, and the counters it gives back when it loses its file. -/
def vmaElfShare (overlap : VmArea) (e : ElfArgs) : VmArea × List RefKey :=
  let overlap := { overlap with protection := overlap.protection ||| e.protection }
  if overlap.origin = .fileBacked ∧ (overlap.file ≠ e.file ∨ overlap.offset ≠ e.offset) then
    ({ overlap with file := none, origin := .anonymous, offset := 0, fileLength := 0 },
      match overlap.file with
      | some f => [.exec f.inode, .file f]
      | none => [])
  else if overlap.origin = .fileBacked ∧ overlap.fileLength < e.fileLength then
    ({ overlap with fileLength := if e.fileLength < pgsize then e.fileLength else pgsize }, [])
  else (overlap, [])

/-- The overlap half of `vma_insert_elf_file`: the first page, shared with `overlap`, is cut off it if
    need be and takes the segment's protection too. -/
def vmaElfOverlap (overlap : VmArea) (e : ElfArgs) : Option VmaState :=
  if overlap.start < e.start then
    (vmaAllocateSplit outcome s.refs overlap e.start).map fun (refs, area) =>
      ⟨refs.put (vmaElfShare area e).2,
        vmaReplace e.start (fun o => [o.trim e.start, (vmaElfShare area e).1]) s.areas⟩
  else
    some ⟨s.refs.put (vmaElfShare overlap e).2,
      vmaReplace e.start (fun _ => [(vmaElfShare overlap e).1]) s.areas⟩

/-- The insert half of `vma_insert_elf_file`: what is left of the segment, then `vma_merge_all`. -/
def vmaElfRest (e : ElfArgs) : VmaState × Int :=
  let finishUp := fun s => (vmaMergeAll s, (0 : Int))
  if e.start < e.finish then
    match vmaInsertFileLength outcome s
        ⟨e.start, e.finish, e.offset, e.fileLength, e.protection, linuxMapPrivate, .fileBacked, .elf,
          e.file, none⟩ with
    | (s, result) => if result < 0 then (s, -1) else finishUp s
  else finishUp s

/-- What is left of the segment past a shared first page. -/
def ElfArgs.rest (e : ElfArgs) : ElfArgs :=
  { e with
    start := e.start + pgsize
    offset := e.offset + pgsize
    fileLength := if e.fileLength > pgsize then e.fileLength - pgsize else 0 }

/-- `vma_insert_elf_file`; `split` is the outcome of the allocation for the cut, `rest` of the one for the
    remaining pages. -/
def vmaInsertElfFile (split rest : Allocation) (s : VmaState) (e : ElfArgs) : VmaState × Int :=
  if vmaElfRefused e then (s, -1)
  else
    match vmaFind e.start s.areas with
    | none => vmaElfRest rest s e
    | some overlap =>
      if vmaElfOverlapRefused overlap e then (s, -1)
      else
        match vmaElfOverlap split s overlap e with
        | none => (s, -1)
        | some s => vmaElfRest rest s e.rest

/-! ## Unmapping and protecting -/

/-- The loop of `vma_unmap`; `split` is the part allocated for the hole of an area cut in two. -/
def vmaUnmapLoop (start finish : Nat) (refs : Refs) (split : Option VmArea) :
    List VmArea → VmaState × Option VmArea
  | [] => (⟨refs, []⟩, split)
  | area :: rest =>
    if area.finish ≤ start then
      let (s, split) := vmaUnmapLoop start finish refs split rest
      (⟨s.refs, area :: s.areas⟩, split)
    else if area.start ≥ finish then (⟨refs, area :: rest⟩, split)
    else if start ≤ area.start ∧ finish ≥ area.finish then
      vmaUnmapLoop start finish (vmaRelease refs area) split rest
    else if start ≤ area.start then (⟨refs, area.tail finish :: rest⟩, split)
    else if finish ≥ area.finish then
      let (s, split) := vmaUnmapLoop start finish refs split rest
      (⟨s.refs, area.trim start :: s.areas⟩, split)
    else (⟨refs, area.trim start :: (split.toList ++ rest)⟩, none)

/-- `vma_unmap`. -/
def vmaUnmap (start finish : Nat) : VmaState × Int :=
  if start ≥ finish || start % pgsize ≠ 0 || finish % pgsize ≠ 0 then (s, -1)
  else
    let run := fun (refs : Refs) (split : Option VmArea) =>
      let (s, split) := vmaUnmapLoop start finish refs split s.areas
      ((⟨split.toList.foldl vmaRelease s.refs, s.areas⟩ : VmaState), (0 : Int))
    match vmaFind start s.areas with
    | some area =>
      if area.start < start ∧ area.finish > finish then
        match vmaAllocateSplit outcome s.refs area finish with
        | none => (s, -1)
        | some (refs, split) => run refs (some split)
      else run s.refs none
    | none => run s.refs none

/-- A split of `area` at `cut` if `needed`; nothing when its allocation fails. -/
def vmaSplitIf (refs : Refs) (area : VmArea) (cut : Nat) (needed : Bool) : Option (Refs × Option VmArea) :=
  if needed then (vmaAllocateSplit outcome refs area cut).map fun p => (p.1, some p.2)
  else some (refs, none)

/-- Linking a split in behind the trimmed area at `address`. -/
def vmaLinkSplit (address cut : Nat) (split : Option VmArea) (areas : List VmArea) : List VmArea :=
  match split with
  | some area => vmaReplace address (fun o => [o.trim cut, area]) areas
  | none => areas

/-- The last loop of `vma_protect`. -/
def vmaProtectLoop (start finish protection : Nat) : List VmArea → List VmArea
  | [] => []
  | area :: rest =>
    if area.finish ≤ start then area :: vmaProtectLoop start finish protection rest
    else if area.start ≥ finish then area :: rest
    else { area with protection := protection } :: vmaProtectLoop start finish protection rest

/-- `vma_protect`. -/
def vmaProtect (startOutcome endOutcome : Allocation) (s : VmaState) (start finish protection : Nat) :
    VmaState × Int :=
  if start ≥ finish || start % pgsize ≠ 0 || finish % pgsize ≠ 0 ||
      !vmaRangeMapped s.areas start finish then (s, -1)
  else
    match vmaFind start s.areas, vmaFind (finish - 1) s.areas with
    | some startArea, some endArea =>
      match vmaSplitIf startOutcome s.refs startArea start (start > startArea.start) with
      | none => (s, -1)
      | some (refs, startSplit) =>
        match vmaSplitIf endOutcome refs endArea finish (finish < endArea.finish) with
        | none => (⟨startSplit.toList.foldl vmaRelease refs, s.areas⟩, -1)
        | some (refs, endSplit) =>
          let areas := vmaLinkSplit start start startSplit s.areas
          let areas := vmaLinkSplit (finish - 1) finish endSplit areas
          (vmaMergeAll ⟨refs, vmaProtectLoop start finish protection areas⟩, 0)
    | _, _ => (s, -1)

/-! ## Cloning -/

/-- The loop of `vma_set_clone` over the areas of the source; `outcome i` is the `i`-th allocation. -/
def vmaCloneLoop (outcome : Nat → Allocation) (s : VmaState) : Nat → List VmArea → VmaState × Int
  | _, [] => (s, 0)
  | i, area :: rest =>
    match vmaInsertFileLength (outcome i) s area with
    | (s, result) =>
      if result < 0 then (vmaSetDestroy s, -1) else vmaCloneLoop outcome s (i + 1) rest

end Caffeinix.Vma
