import Caffeinix.Mm.PageTable

/-!
# `Mm.PageCache` — the page cache (`kernel/page_cache.c`)

The list of entries has its most recently used entry first, as the source's. A loop over the entries runs over
the list it finds at the start; it changes or releases no entry before its turn.
-/

namespace Caffeinix.Mm

open Vma

variable {Proc : Type} [DecidableEq Proc]

variable (s : Machine Proc)

/-- `page_cache_find`. -/
def Machine.pageCacheFind (inode offset : Nat) : Option CacheEntry :=
  s.cache.find? fun entry => entry.inode = inode ∧ entry.offset = offset

/-- New values for the fields of an entry. -/
def Machine.setEntry (old new : CacheEntry) : Machine Proc :=
  { s with cache := s.cache.map fun entry => if entry = old then new else entry }

variable (entry : CacheEntry)

/-- `list_remove` and `list_insert_after(&page_cache.entries, ..)`. -/
def Machine.toFront : Machine Proc :=
  { s with cache := entry :: s.cache.erase entry }

/-- `page_cache_release`. -/
def pageCacheRelease : Machine Proc :=
  pfree { s with cache := s.cache.erase entry } entry.page

/-! ## Reclaim -/

/-- Not dirty, not mapped for write-back and not on its way out. -/
def CacheEntry.clean : Bool :=
  !entry.dirty && !entry.writebackMapped && !entry.evicting

/-- `page_cache_select_clean_locked`: the least recently used clean entry is marked. -/
def pageCacheSelectCleanLocked : Machine Proc :=
  match s.cache.reverse.find? CacheEntry.clean with
  | none => s
  | some entry => s.setEntry entry { entry with evicting := true }

/-- The loop of `page_cache_reclaim_locked`. -/
def pageCacheReclaimLoop (target : Nat) (s : Machine Proc) (reclaimed : Nat) :
    List CacheEntry → Machine Proc × Nat
  | [] => (s, reclaimed)
  | entry :: rest =>
    if reclaimed ≥ target then (s, reclaimed)
    else if !entry.clean || pallocRefcount s entry.page ≠ 1 then
      pageCacheReclaimLoop target s reclaimed rest
    else pageCacheReclaimLoop target (pageCacheRelease s entry) (reclaimed + 1) rest

/-- `page_cache_reclaim_locked`, and `page_cache_reclaim`. -/
def pageCacheReclaim (target : Nat) : Machine Proc × Nat :=
  pageCacheReclaimLoop target s 0 s.cache.reverse

/-- The end of a round of `page_cache_reclaim_mapped`, for an entry that `page_cache_select_clean_locked`
    has marked and `mmap_reclaim_file_page` has tried to unmap. -/
def pageCacheReclaimFinish (blocked : Bool) : Machine Proc :=
  if blocked || entry.dirty || entry.writebackMapped || pallocRefcount s entry.page ≠ 1 then
    (s.setEntry entry { entry with evicting := false }).toFront { entry with evicting := false }
  else pageCacheRelease s entry

/-- `page_cache_reclaim_unmapped` looks for these: unmapped, and not dirty. -/
def CacheEntry.unmapped : Bool :=
  !entry.dirty && entry.writebackMapped && !entry.evicting && pallocRefcount s entry.page = 1

/-- `page_cache_reclaim_unmapped`. -/
def pageCacheReclaimUnmapped : Machine Proc :=
  s.cache.foldl (fun s entry => if entry.unmapped s then pageCacheRelease s entry else s) s

/-! ## Lookup -/

/-- A page with an entry for it (or, for `anon_mapping_get_page`, a list node): if one of the two is missing
    and something can be reclaimed, it is tried once more. -/
def allocEntryPage : Machine Proc × Option Page :=
  let entry := outcome s
  let page := pallocZero entry.1
  if entry.2 && page.2.isSome then page
  else
    let reclaimed := pageCacheReclaim page.1 1
    let again :=
      if reclaimed.2 = 0 then (reclaimed.1, entry.2, page.2)
      else
        let entry' := if entry.2 then (reclaimed.1, true) else outcome reclaimed.1
        let page' := if page.2.isSome then (entry'.1, page.2) else pallocZero entry'.1
        (page'.1, entry'.2, page'.2)
    match again.2.2 with
    | none => (again.1, none)
    | some page => if again.2.1 then (again.1, some page) else (pfree again.1 page, none)

variable (file : VfsFile)

/-- The entry of a page just read. -/
def newEntry (offset : Nat) (page : Page) : CacheEntry :=
  ⟨file, file.inode, offset, page, false, false, false, false⟩

/-- The page read from the file, and its entry. -/
def insertEntry (offset bytes : Nat) (page : Page) : Machine Proc :=
  let s := s.setData page fun i => if i < bytes then (s.files file.inode).data (offset + i) else 0
  { s with cache := newEntry file offset page :: s.cache }

/-- `PAGE_CACHE_READAHEAD_PAGES`. -/
def pageCacheReadaheadPages : Nat := 4

/-- How many pages `page_cache_readahead_locked` goes for: up to the end of the file or the first page that
    is there. -/
def readaheadCount (inode offset bytes : Nat) : Nat :=
  let available := (s.files inode).size - offset
  if available ≤ bytes then 0
  else
    let count := if available > pageCacheReadaheadPages * pgsize then pageCacheReadaheadPages
      else (available + pgsize - 1) / pgsize
    ((List.range' 1 (count - 1)).takeWhile fun index =>
      (s.pageCacheFind inode (offset + index * pgsize)).isNone).length + 1

/-- The pages after the first; the first failure ends the loop. -/
def readaheadAlloc (s : Machine Proc) : Nat → Machine Proc × List Page
  | 0 => (s, [])
  | count + 1 =>
    let entry := outcome s
    let page := pallocZero entry.1
    match page.2 with
    | none => (page.1, [])
    | some p =>
      if entry.2 then
        let more := readaheadAlloc page.1 count
        (more.1, p :: more.2)
      else (pfree page.1 p, [])

/-- The pages read, with their entries; `finish` is where the read ends. -/
def readaheadInsert (s : Machine Proc) (file : VfsFile) (finish : Nat) (offset : Nat) :
    List Page → Machine Proc
  | [] => s
  | page :: rest =>
    readaheadInsert (insertEntry s file offset (min pgsize (finish - offset)) page) file finish
      (offset + pgsize) rest

/-- `enum page_cache_get_result`. -/
inductive CacheGet
  | ok (page : Page)
  | retry
  | io
  | error

/-- `palloc_get` for the caller of `page_cache_get`, after the page went in. -/
def cacheGetNew (offset : Nat) (page : Page) (undo : Machine Proc → Machine Proc) : Machine Proc × CacheGet :=
  let r := pallocGet s page
  if r.2 then (r.1.toFront (newEntry file offset page), .ok page) else (undo r.1, .error)

/-- `page_cache_readahead_locked`; `none` when it leaves the page to its caller. -/
def pageCacheReadaheadLocked (offset bytes : Nat) : Machine Proc × Option CacheGet :=
  let count := readaheadCount s file.inode offset bytes
  if count < 2 then (s, none)
  else
    -- the buffer of four pages
    let buffer := outcome s
    if !buffer.2 then (buffer.1, none)
    else
      let first := allocEntryPage buffer.1
      match first.2 with
      | none => (first.1, none)
      | some page =>
        let more := readaheadAlloc first.1 (count - 1)
        if more.2 = [] then (pfree more.1 page, none)
        else
          let read := outcome more.1
          if !read.2 || !s.canRead file then ((page :: more.2).foldl pfree read.1, some .io)
          else
            let finish := min (offset + (more.2.length + 1) * pgsize) (s.files file.inode).size
            let s := readaheadInsert read.1 file finish offset (page :: more.2)
            let r := cacheGetNew s file offset page fun s =>
              (s.cache.take (more.2.length + 1)).foldl pageCacheRelease s
            (r.1, some r.2)

/-- The rest of `page_cache_get`: one page is read. -/
def pageCacheGetOne (offset bytes : Nat) : Machine Proc × CacheGet :=
  let first := allocEntryPage s
  match first.2 with
  | none => (first.1, .error)
  | some page =>
    let read := outcome first.1
    if !s.canRead file || offset + bytes > (s.files file.inode).size then (pfree read.1 page, .io)
    else if !read.2 then
      -- out of memory or another error
      let io := outcome read.1
      (pfree io.1 page, if io.2 then .io else .error)
    else
      cacheGetNew (insertEntry read.1 file offset bytes page) file offset page fun s =>
        pageCacheRelease s (newEntry file offset page)

/-- `page_cache_get`. -/
def pageCacheGet (offset bytes : Nat) : Machine Proc × CacheGet :=
  if bytes = 0 || bytes > pgsize || offset % pgsize ≠ 0 then (s, .error)
  else
    match s.pageCacheFind file.inode offset with
    | some entry =>
      if entry.evicting then (s, .retry)
      else
        let r := pallocGet s entry.page
        if r.2 then (r.1.toFront entry, .ok entry.page) else (r.1, .error)
    | none =>
      let r := pageCacheReadaheadLocked s file offset bytes
      match r.2 with
      | some result => (r.1, result)
      | none => pageCacheGetOne r.1 file offset bytes

/-! ## Marks -/

/-- `page_cache_mark_dirty`. -/
def pageCacheMarkDirty (offset : Nat) : Machine Proc × Bool :=
  if !s.canWrite file || offset % pgsize ≠ 0 then (s, false)
  else
    match s.pageCacheFind file.inode offset with
    | none => (s, false)
    | some entry =>
      (s.setEntry entry
        { entry with
          file := if s.canWrite entry.file then entry.file else file
          dirty := true
          writebackMapped := true }, true)

/-- `vfs_file_mark_shared_dirty`. -/
def vfsFileMarkSharedDirty (offset : Nat) : Machine Proc × Bool :=
  let r := outcome s
  if r.2 then pageCacheMarkDirty r.1 file offset else r

/-- `page_cache_mark_executable`. -/
def pageCacheMarkExecutable (offset : Nat) : Machine Proc × Bool :=
  if offset % pgsize ≠ 0 then (s, false)
  else
    match s.pageCacheFind file.inode offset with
    | none => (s, false)
    | some entry =>
      if entry.evicting then (s, false)
      else (s.setEntry entry { entry with executableMapped := true }, true)

/-! ## Write-back -/

/-- `page_cache_writeback_entry`; writes of the file system do not fail. -/
def pageCacheWritebackEntry : Machine Proc × Bool :=
  if !entry.dirty && !entry.writebackMapped then (s, true)
  else if !s.canWrite entry.file then (s, false)
  else
    let file := s.files entry.file.inode
    if entry.offset ≥ file.size then
      (s.setEntry entry { entry with dirty := false, writebackMapped := false }, true)
    else
      let bytes := min pgsize (file.size - entry.offset)
      let s : Machine Proc :=
        { s with
          files := Function.update s.files entry.file.inode
            (file.write entry.offset bytes 0 (s.data entry.page)) }
      (s.setEntry entry
        { entry with
          dirty := false
          writebackMapped := entry.writebackMapped && pallocRefcount s entry.page ≠ 1 }, true)

/-- The loop of `page_cache_writeback_locked`, and with `stop` that of `page_cache_evict_super`, which ends
    at the first error. -/
def pageCacheWritebackLoop (stop : Bool) (s : Machine Proc) : List CacheEntry → Machine Proc × Bool
  | [] => (s, true)
  | entry :: rest =>
    let r := pageCacheWritebackEntry s entry
    if stop && !r.2 then r
    else
      let more := pageCacheWritebackLoop stop r.1 rest
      (more.1, r.2 && more.2)

/-- `page_cache_writeback_inode`, `page_cache_writeback_inode_locked`, `page_cache_writeback_file`. -/
def pageCacheWritebackInode (inode : Nat) : Machine Proc × Bool :=
  pageCacheWritebackLoop false s (s.cache.filter fun entry => entry.inode = inode)

/-- `page_cache_writeback_super`. -/
def pageCacheWritebackSuper (superblock : Nat) : Machine Proc × Bool :=
  pageCacheWritebackLoop false s (s.cache.filter fun entry => s.superblock entry.inode = superblock)

/-- `page_cache_evict_super`. -/
def pageCacheEvictSuper (superblock : Nat) : Machine Proc × Bool :=
  let entries := s.cache.filter fun entry => s.superblock entry.inode = superblock
  if entries.any fun entry => entry.evicting || pallocRefcount s entry.page ≠ 1 then (s, false)
  else
    let r := pageCacheWritebackLoop true s entries
    if !r.2 then r
    else
      ((r.1.cache.filter fun entry => s.superblock entry.inode = superblock).foldl pageCacheRelease r.1, true)

/-! ## Size changes -/

/-- One entry of `page_cache_refresh`: the bytes between the old end and the write are cleared, those of the
    write read back. -/
def refreshEntry (offset finish oldSize : Nat) (s : Machine Proc) (entry : CacheEntry) : Machine Proc :=
  if entry.inode ≠ file.inode || finish ≤ entry.offset || min oldSize offset ≥ entry.offset + pgsize then s
  else
    s.setData entry.page fun i =>
      let x := entry.offset + i
      if oldSize ≤ x && x < offset then 0
      else if offset ≤ x && x < finish then (s.files file.inode).data x
      else s.data entry.page i

/-- `page_cache_refresh`. -/
def pageCacheRefresh (offset count oldSize : Nat) : Machine Proc :=
  if count = 0 then s else s.cache.foldl (refreshEntry file offset (offset + count) oldSize) s

/-- One entry of a shrinking `page_cache_truncate`. -/
def truncateEntry (size : Nat) (s : Machine Proc) (entry : CacheEntry) : Machine Proc :=
  if entry.offset ≥ pgroundup size then pageCacheRelease s entry
  else
    (s.setData entry.page fun i => if size % pgsize ≤ i then 0 else s.data entry.page i).setEntry entry
      { entry with dirty := false, writebackMapped := false, evicting := false }

/-- `page_cache_truncate`; nothing while it has to wait for an entry on its way out or for a page that is
    still in use. -/
def pageCacheTruncate (inode oldSize size : Nat) : Option (Machine Proc) :=
  if size ≥ oldSize then
    if size = oldSize || oldSize % pgsize = 0 then some s
    else
      match s.pageCacheFind inode (pgrounddown oldSize) with
      | none => some s
      | some entry =>
        if entry.evicting then none
        else
          some (s.setData entry.page fun i =>
            if oldSize % pgsize ≤ i && i < min pgsize (size - entry.offset) then 0
            else s.data entry.page i)
  else
    let entries := s.cache.filter fun entry => entry.inode = inode ∧ entry.offset ≥ pgrounddown size
    if entries.any fun entry => entry.evicting || pallocRefcount s entry.page ≠ 1 then none
    else some (entries.foldl (truncateEntry size) s)

end Caffeinix.Mm
