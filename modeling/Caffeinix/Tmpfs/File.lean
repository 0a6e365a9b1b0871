import Caffeinix.Fs.Error
import Caffeinix.Lib.PagedBytes
import Caffeinix.Lib.Runs
import Caffeinix.Riscv

/-!
# `Tmpfs.File` — regular files of tmpfs (`fs/tmpfs.c`)

A file is a size, a list of pages that grows at the head, and the number of its pages. The functions are
`tmpfs_read`, `tmpfs_write`, `tmpfs_truncate` and `tmpfs_fallocate`. Whether a page can be allocated and how far
a copy from or to the user comes are arguments of the call. `copyin` copies a user page at a time, so that a copy
which fails may have changed a part of the file's page.
-/

namespace Caffeinix.Tmpfs

open PagedBytes

/-- `struct tmpfs_inode` of a regular file. -/
structure Node where
  size : Nat
  pages : List Page
  pageCount : Nat

/-- A file as it is created. -/
def Node.new : Node := ⟨0, [], 0⟩

/-- What is in the pages of the file, also behind its end. -/
def Node.byte (node : Node) (x : Nat) : UInt8 := PagedBytes.byte pgsize node.pages x

variable (node : Node)

/-- `tmpfs_get_page_locked`: whether there is a page now. `alloc` says whether memory for a new one is there. -/
def tmpfsGetPage (index : Nat) (alloc : Bool) : Node × Bool :=
  match find node.pages index with
  | some _ => (node, true)
  | none =>
    if alloc then ({ node with pages := .zero index :: node.pages, pageCount := node.pageCount + 1 }, true)
    else (node, false)

/-- What a call returns, with the bytes it has read. -/
structure Outcome where
  status : Int
  bytes : List UInt8
deriving DecidableEq

/-! ## Reading -/

/-- `page ? page->data + offset : tmpfs_zero_page + offset`. -/
def pageSource (position : Nat) : Nat → UInt8 :=
  match find node.pages (position / pgsize) with
  | some p => fun i => p.data (position % pgsize + i)
  | none => fun _ => 0

/-- The loop of `tmpfs_read`; `fault k` says that the copy of the `k`-th piece fails. -/
def readLoop (node : Node) (count : Nat) (fault : Nat → Bool) : Nat → Nat → Nat → List UInt8 → Outcome
  | 0, _, _, out => ⟨out.length, out⟩
  | fuel + 1, k, position, out =>
    if count ≤ out.length then ⟨out.length, out⟩
    else
      let offset := position % pgsize
      let chunk := min (count - out.length) (pgsize - offset)
      if fault k then ⟨if out.length ≠ 0 then out.length else VfsError.fault.code, out⟩
      else
        readLoop node count fault fuel (k + 1) (position + chunk)
          (out ++ (List.range chunk).map (pageSource node position))

/-- `tmpfs_read`. -/
def tmpfsRead (position count : Nat) (fault : Nat → Bool) : Outcome :=
  if node.size ≤ position then ⟨0, []⟩
  else
    let count := min count (node.size - position)
    readLoop node count fault count 0 position []

/-! ## Writing -/

/-- One piece of a write: whether a page can be allocated, and after how many bytes the copy fails. -/
structure Piece where
  alloc : Bool
  fault : Option Nat
deriving DecidableEq

/-- The loop of `tmpfs_write`: the file, the position, the bytes transferred and the error to return for none. -/
def writeLoop (count : Nat) (source : Nat → UInt8) (piece : Nat → Piece) :
    Nat → Nat → Node → Nat → Nat → Node × Nat × Nat × VfsError
  | 0, _, node, position, total => (node, position, total, .nomem)
  | fuel + 1, k, node, position, total =>
    if count ≤ total then (node, position, total, .nomem)
    else
      let offset := position % pgsize
      let chunk := min (count - total) (pgsize - offset)
      let copy (node : Node) (n : Nat) : Node :=
        { node with pages := fill node.pages (position / pgsize) offset n fun i => source (total + i) }
      match tmpfsGetPage node (position / pgsize) (piece k).alloc with
      | (node, false) => (node, position, total, .nomem)
      | (node, true) =>
        match (piece k).fault with
        | some m => (copy node (min m chunk), position, total, .io)
        | none => writeLoop count source piece fuel (k + 1) (copy node chunk) (position + chunk) (total + chunk)

/-- `tmpfs_write`. The size follows the position whether or not something was transferred. -/
def tmpfsWrite (position count : Nat) (source : Nat → UInt8) (piece : Nat → Piece) : Node × Outcome :=
  if count > 2 ^ 64 - 1 - position then (node, ⟨VfsError.inval.code, []⟩)
  else
    let r := writeLoop count source piece count 0 node position 0
    ({ r.1 with size := max r.1.size r.2.1 },
      ⟨if r.2.2.1 ≠ 0 then r.2.2.1 else if count ≠ 0 then r.2.2.2.code else 0, []⟩)

/-! ## Changing the size -/

/-- `tmpfs_truncate`. -/
def tmpfsTruncate (size : Nat) : Node × Outcome :=
  if size < node.size then
    let limit := size / pgsize + if size % pgsize = 0 then 0 else 1
    let kept := node.pages.filter fun p => decide (p.index < limit)
    let offset := size % pgsize
    ({ size := size
       pages := if offset ≠ 0 then fill kept (size / pgsize) offset (pgsize - offset) fun _ => 0 else kept
       pageCount := node.pageCount - (node.pages.length - kept.length) }, ⟨0, []⟩)
  else ({ node with size := size }, ⟨0, []⟩)

/-- The loop of `tmpfs_fallocate` over `n` pages from `index` on. -/
def fallocateLoop (alloc : Nat → Bool) : Nat → Nat → Node → Node × Bool
  | 0, _, node => (node, true)
  | n + 1, index, node =>
    match tmpfsGetPage node index (alloc index) with
    | (node, false) => (node, false)
    | (node, true) => fallocateLoop alloc n (index + 1) node

/-- `tmpfs_fallocate`. -/
def tmpfsFallocate (offset length : Nat) (alloc : Nat → Bool) : Node × Outcome :=
  if length = 0 then (node, ⟨0, []⟩)
  else
    let first := offset / pgsize
    let last := (offset + length - 1) / pgsize
    match fallocateLoop alloc (last + 1 - first) first node with
    | (node, true) => ({ node with size := max node.size (offset + length) }, ⟨0, []⟩)
    | (node, false) => (node, ⟨VfsError.nospc.code, []⟩)

/-! ## Calls -/

inductive Step where
  | read (position count : Nat) (fault : Nat → Bool)
  | write (position count : Nat) (source : Nat → UInt8) (piece : Nat → Piece)
  | truncate (size : Nat)
  | fallocate (offset length : Nat) (alloc : Nat → Bool)

def Node.serve : Step → Node × Outcome
  | .read position count fault => (node, tmpfsRead node position count fault)
  | .write position count source piece => tmpfsWrite node position count source piece
  | .truncate size => tmpfsTruncate node size
  | .fallocate offset length alloc => tmpfsFallocate node offset length alloc

def Node.step (a : Step) : Node := (node.serve a).1

def Node.run (l : List Step) : Node := l.foldl Node.step Node.new

end Caffeinix.Tmpfs
