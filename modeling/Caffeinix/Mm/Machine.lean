import Caffeinix.Vma.Refinement

/-!
# `Mm.Machine` — the state of the memory system, and its physical pages (`kernel/palloc.c`)

One machine holds everything the memory code works on: the physical pages with their reference counts and
contents, the page tables and the VMA sets of all address spaces, the page cache, the pages of shared
anonymous mappings, and the files. Locks do not appear: a function of the model is a critical section of the
source, and the calls of different processes interleave between them.

What the code cannot choose is read from the machine: `supply` lists what the coming calls of `buddy_alloc`
return for a single page, and `outcomes` whether the coming fallible calls outside the model (`malloc`, reads
of the file system, `vfs_inode_remove_privileges`) succeed.
-/

namespace Caffeinix.Mm

open Vma
open Function (update)

/-- The physical address of a page. -/
abbrev Page := Nat

/-- Why the kernel has stopped. -/
inductive Panic
  /-- `alloc_pages`: `"allocate referenced page"` -/
  | allocateReferencedPage
  /-- `pfree`: `"put invalid page"`, for a page of RAM without a reference -/
  | putInvalidPage
  /-- `pfree`: `"put invalid page"`, for the page of kernel text mapped at `USER_SIGRETURN` -/
  | putSigtrampoline
  /-- `vm_map`: `"vm_map remap"` -/
  | vmMapRemap
  /-- `sys_linux_mprotect`: `"VMA and page table protection mismatch"` -/
  | protectionMismatch
deriving DecidableEq

/-- The permission bits of a page table entry, with `PTE_SW_COW`. -/
structure Perm where
  r : Bool
  w : Bool
  x : Bool
  u : Bool
  cow : Bool
deriving DecidableEq

/-- A valid leaf of a user page table; `PTE_V` and `PTE_SW_USER` are set in all of them. -/
structure Pte (Proc : Type) where
  proc : Proc
  va : Nat
  page : Page
  perm : Perm
  /-- `PTE_D` -/
  d : Bool
deriving DecidableEq

/-- A page of a page table: the root has level 2, the table of level `n` for `va` the index
    `va >> PTEXSHIFT(n + 1)`. -/
structure Table (Proc : Type) where
  proc : Proc
  level : Nat
  index : Nat
  page : Page
deriving DecidableEq

/-- `struct page_cache_entry`; an inode number names the superblock too. -/
structure CacheEntry where
  file : VfsFile
  inode : Nat
  offset : Nat
  page : Page
  dirty : Bool
  writebackMapped : Bool
  executableMapped : Bool
  evicting : Bool
deriving DecidableEq

/-- `struct anon_mapping_page`, with the mapping whose list it is on. -/
structure AnonPage where
  mapping : VmaBacking
  offset : Nat
  page : Page
deriving DecidableEq

/-! ## Files (`fs/tmpfs.c`) -/

/-- A regular file as its file system keeps it, with what its pages have behind its end. -/
structure File where
  size : Nat
  data : Nat → UInt8

/-- A file with nothing behind its end. -/
def File.clean (f : File) : File := ⟨f.size, fun x => if x < f.size then f.data x else 0⟩

/-- `tmpfs_write` of the bytes `source` at `position`. The size follows the position also when there are no
    bytes to write. The bytes that `either_copyin` copies before it fails are in the page and are not counted. -/
def File.write (f : File) (position count uncounted : Nat) (source : Nat → UInt8) : File where
  size := max f.size (position + count)
  data := fun x => if position ≤ x ∧ x < position + count + uncounted then source (x - position) else f.data x

/-- `tmpfs_truncate`. -/
def File.truncate (f : File) (size : Nat) : File where
  size := size
  data := fun x => if size < f.size ∧ size ≤ x then 0 else f.data x

/-- `tmpfs_fallocate`. -/
def File.fallocate (f : File) (offset length : Nat) : File where
  size := max f.size (offset + length)
  data := f.data

/-! ## The machine -/

/-- The memory system. -/
structure Machine (Proc : Type) where
  /-- `buddy_allocated(page, 0)` -/
  allocated : Page → Bool
  /-- `page_ref_pointer(page)` -/
  refs : Page → Nat
  data : Page → Nat → UInt8
  supply : List (Option Page)
  outcomes : List Bool
  ptes : List (Pte Proc)
  tables : List (Table Proc)
  /-- whether `USER_SIGRETURN` is mapped -/
  sigreturn : Proc → Bool
  vmas : VmaWorld Proc
  cache : List CacheEntry
  anon : List AnonPage
  /-- the pages `user_copy_va2pa_pinned` has handed out -/
  pins : List Page
  /-- the pages other kernel code has from `palloc` -/
  kernel : List Page
  files : Nat → File
  /-- `file->flags & VFS_OPEN_READ` -/
  canRead : VfsFile → Bool
  /-- `file->flags & VFS_OPEN_WRITE` -/
  canWrite : VfsFile → Bool
  superblock : Nat → Nat
  panic : Option Panic

variable {Proc : Type}

/-! ## Outcomes -/

variable (s : Machine Proc)

/-- The next fallible call outside the model. -/
def outcome : Machine Proc × Bool :=
  match s.outcomes with
  | [] => (s, false)
  | b :: rest => ({ s with outcomes := rest }, b)

/-! ## Physical pages -/

/-- The largest reference count, `~(uint32)0`. -/
def uint32Max : Nat := 2 ^ 32 - 1

/-- `alloc_pages(0, flags)`. The buddy allocator never hands out a page that is allocated, so such a supply
    counts as none. -/
def allocPages (zero : Bool) : Machine Proc × Option Page :=
  match s.supply with
  | [] => (s, none)
  | none :: rest => ({ s with supply := rest }, none)
  | some page :: rest =>
    if s.allocated page then ({ s with supply := rest }, none)
    else if s.refs page ≠ 0 then
      ({ s with supply := rest, panic := some .allocateReferencedPage }, none)
    else
      ({ s with
        supply := rest
        allocated := update s.allocated page true
        refs := update s.refs page 1
        data := if zero then update s.data page fun _ => 0 else s.data }, some page)

/-- `palloc_zero`. -/
def pallocZero : Machine Proc × Option Page := allocPages s true

/-- `pfree`. -/
def pfree (page : Page) : Machine Proc :=
  if s.refs page = 0 || !s.allocated page then { s with panic := some .putInvalidPage }
  else
    { s with
      refs := update s.refs page (s.refs page - 1)
      allocated :=
        if s.refs page - 1 = 0 then update s.allocated page false else s.allocated }

/-- `palloc_get`. -/
def pallocGet (page : Page) : Machine Proc × Bool :=
  if s.refs page ≠ 0 && s.refs page ≠ uint32Max && s.allocated page then
    ({ s with refs := update s.refs page (s.refs page + 1) }, true)
  else (s, false)

/-- `palloc_refcount`. -/
def pallocRefcount (page : Page) : Nat :=
  if s.allocated page then s.refs page else 0

/-- `palloc` by code outside the model. -/
def kernelAlloc : Machine Proc :=
  match (allocPages s false).2 with
  | none => (allocPages s false).1
  | some page => { (allocPages s false).1 with kernel := page :: (allocPages s false).1.kernel }

/-- Code outside the model frees one of its pages. -/
def kernelFree (page : Page) : Machine Proc :=
  if page ∈ s.kernel then pfree { s with kernel := s.kernel.erase page } page else s

/-! ## Contents -/

/-- `memmove` of a whole page. -/
def Machine.setData (page : Page) (bytes : Nat → UInt8) : Machine Proc :=
  { s with data := update s.data page bytes }

end Caffeinix.Mm
