import Caffeinix.Fs.Error
import Caffeinix.Lib.Chains

/-!
# `Tmpfs.Tree` — the names of tmpfs (`fs/tmpfs.c`)

The inodes of a mounted tmpfs with their types, link counts, references from the VFS, parents and directory
entries, and the operations on them. An inode is known by its number; numbers are not used again. Each operation
runs under `super->lock` and is one step. The outcomes of memory allocation are arguments of a call. A call is
made on inodes that the VFS holds, directories where a directory is wanted (`vfs_mutation_permission`); with
others there is no call. Names have been checked by the VFS, so that the tests of `tmpfs_add_entry_locked` on
their length do not fail.

Times and permissions are not here, nor the contents of files, see `Tmpfs.File`.
-/

namespace Caffeinix.Tmpfs

open Chains
open Function (update)

abbrev Ino := Nat

/-- `enum vfs_inode_type`. -/
inductive InodeType where
  | regular | directory | symlink | charDevice | blockDevice | fifo | socket
deriving DecidableEq

/-- A name of at least one and at most `VFS_NAME_MAX` bytes. -/
@[ext]
structure Name where
  bytes : List UInt8
  nonempty : bytes ≠ []
  short : bytes.length ≤ 255
deriving DecidableEq

/-- `struct tmpfs_entry`. -/
structure Entry where
  name : Name
  inode : Ino
deriving DecidableEq

/-- `struct tmpfs_super` and its `struct tmpfs_inode`s. -/
structure Tree where
  nextInode : Ino
  root : Ino
  /-- allocated and not destroyed -/
  live : Ino → Bool
  type : Ino → InodeType
  nlink : Ino → Nat
  references : Ino → Nat
  parent : Ino → Ino
  entries : Ino → List Entry

/-- An inode. -/
structure Inode where
  type : InodeType
  nlink : Nat
  references : Nat
  parent : Ino
  entries : List Entry
deriving DecidableEq

variable (t : Tree)

/-- The inode with this number, if there is one. -/
def Tree.inode (i : Ino) : Option Inode :=
  if t.live i then some ⟨t.type i, t.nlink i, t.references i, t.parent i, t.entries i⟩ else none

/-- `tmpfs_mount`: the root, held by the superblock. -/
def Tree.mount : Tree where
  nextInode := 2
  root := 1
  live := fun i => i == 1
  type := fun _ => .directory
  nlink := fun i => if i = 1 then 2 else 0
  references := fun i => if i = 1 then 1 else 0
  parent := fun _ => 1
  entries := fun _ => []

/-! ## Inodes and entries -/

/-- `tmpfs_inode_alloc_locked`, of the number `nextInode`. -/
def Tree.inodeAlloc (type : InodeType) : Tree where
  nextInode := t.nextInode + 1
  root := t.root
  live := update t.live t.nextInode true
  type := update t.type t.nextInode type
  nlink := update t.nlink t.nextInode 0
  references := update t.references t.nextInode 0
  parent := update t.parent t.nextInode 0
  entries := update t.entries t.nextInode []

/-- `tmpfs_inode_destroy_locked`. -/
def Tree.inodeDestroy (i : Ino) : Tree := { t with live := update t.live i false }

/-- `tmpfs_inode_maybe_destroy_locked`. -/
def Tree.inodeMaybeDestroy (i : Ino) : Tree :=
  if t.nlink i = 0 ∧ t.references i = 0 then t.inodeDestroy i else t

def Tree.setNlink (i : Ino) (n : Nat) : Tree := { t with nlink := update t.nlink i n }

variable (d : Ino)

def Tree.setEntries (l : List Entry) : Tree :=
  { t with entries := update t.entries d l }

/-- `node->references++` in `tmpfs_wrap_locked`. -/
def Tree.hold (i : Ino) : Tree :=
  { t with references := update t.references i (t.references i + 1) }

variable (name : Name)

/-- `tmpfs_find_entry_locked`. -/
def Tree.findEntry : Option Entry :=
  (t.entries d).find? fun e => e.name = name

/-- `tmpfs_add_entry_locked`; `memory` is the outcome of `malloc`. -/
def Tree.addEntry (i : Ino) (memory : Bool) : Except VfsError Tree :=
  if (t.findEntry d name).isSome then .error .exist
  else if !memory then .error .nomem
  else .ok (t.setEntries d (⟨name, i⟩ :: t.entries d))

/-- `tmpfs_detach_entry_locked` of the entry that was found. -/
def Tree.detachEntry (e : Entry) : Tree :=
  t.setEntries d ((t.entries d).eraseP fun e' => e'.name = e.name)

/-- `tmpfs_remove_entry_locked`. A count that is 0 stays 0. -/
def Tree.removeEntry (e : Entry) : Tree :=
  let t := t.detachEntry d e
  let t :=
    if t.type e.inode = .directory then (t.setNlink d (t.nlink d - 1)).setNlink e.inode 0
    else t.setNlink e.inode (t.nlink e.inode - 1)
  t.inodeMaybeDestroy e.inode

/-- `parent->entries = entry->next` where a new entry is taken back. -/
def Tree.takeBack : Tree :=
  t.setEntries d ((t.entries d).dropWhile fun e => e.name ≠ name).tail

/-! ## The operations -/

/-- What an operation returns. `refused` is a call that the VFS does not make, `panic` is `PANIC`, and `stuck`
    a loop that does not end. -/
inductive Reply where
  | ok (result : Option Ino)
  | error (e : VfsError)
  | refused
  | panic
  | stuck
deriving DecidableEq

/-- `tmpfs_lookup` in a directory. -/
def tmpfsLookup (memory : Bool) : Tree × Reply :=
  match t.findEntry d name with
  | none => (t, .error .noent)
  | some e => if memory then (t.hold e.inode, .ok (some e.inode)) else (t, .error .nomem)

/-- The allocations of a new inode: itself, what it needs besides, its entry and the VFS's inode for it. -/
structure Memory where
  inode : Bool
  target : Bool
  entry : Bool
  wrap : Bool
deriving DecidableEq

/-- A new inode that is not a directory: `tmpfs_create`, `tmpfs_symlink` and `tmpfs_mknod`. -/
def makeNode (type : InodeType) (memory : Memory) : Tree × Reply :=
  let node := t.nextInode
  if (t.findEntry d name).isSome then (t, .error .exist)
  else if !memory.inode then (t, .error .nomem)
  else
    let t := t.inodeAlloc type
    if !memory.target then (t.inodeDestroy node, .error .nomem)
    else
      match t.addEntry d name node memory.entry with
      | .error e => (t.inodeDestroy node, .error e)
      | .ok t =>
        let t := t.setNlink node 1
        if memory.wrap then (t.hold node, .ok (some node))
        else (((t.takeBack d name).setNlink node 0).inodeDestroy node, .error .nomem)

/-- `tmpfs_create`; there is nothing to allocate besides. -/
def tmpfsCreate (inode entry wrap : Bool) : Tree × Reply :=
  makeNode t d name .regular ⟨inode, true, entry, wrap⟩

/-- `tmpfs_symlink`, which also allocates the target. -/
def tmpfsSymlink (inode target entry wrap : Bool) : Tree × Reply :=
  makeNode t d name .symlink ⟨inode, target, entry, wrap⟩

/-- `tmpfs_mknod`. -/
def tmpfsMknod (type : InodeType) (inode entry wrap : Bool) : Tree × Reply :=
  if type ≠ .charDevice && type ≠ .blockDevice && type ≠ .fifo && type ≠ .socket then (t, .error .inval)
  else makeNode t d name type ⟨inode, true, entry, wrap⟩

/-- `tmpfs_mkdir`. -/
def tmpfsMkdir (inode entry wrap : Bool) : Tree × Reply :=
  let node := t.nextInode
  if (t.findEntry d name).isSome then (t, .error .exist)
  else if !inode then (t, .error .nomem)
  else
    let t := t.inodeAlloc .directory
    match t.addEntry d name node entry with
    | .error e => (t.inodeDestroy node, .error e)
    | .ok t =>
      let t := { t.setNlink node 2 with parent := update t.parent node d }
      let t := t.setNlink d (t.nlink d + 1)
      if wrap then (t.hold node, .ok (some node))
      else
        let t := t.takeBack d name
        let t := t.setNlink d (t.nlink d - 1)
        ((t.setNlink node 0).inodeDestroy node, .error .nomem)

/-- `tmpfs_link`. -/
def tmpfsLink (i d : Ino) (name : Name) (entry : Bool) : Tree × Reply :=
  if t.type i = .directory then (t, .error .perm)
  else
    match t.addEntry d name i entry with
    | .error e => (t, .error e)
    | .ok t => (t.setNlink i (t.nlink i + 1), .ok none)

/-- `tmpfs_unlink`. -/
def tmpfsUnlink : Tree × Reply :=
  match t.findEntry d name with
  | none => (t, .error .noent)
  | some e => if t.type e.inode = .directory then (t, .error .isdir) else (t.removeEntry d e, .ok none)

/-- `tmpfs_rmdir`. -/
def tmpfsRmdir : Tree × Reply :=
  match t.findEntry d name with
  | none => (t, .error .noent)
  | some e =>
    if t.type e.inode ≠ .directory then (t, .error .notdir)
    else if t.entries e.inode ≠ [] then (t, .error .notempty)
    else (t.removeEntry d e, .ok none)

/-- The end of `tmpfs_rename`: the entry goes to the new directory under the new name. -/
def Tree.moveEntry (od : Ino) (e : Entry) (nd : Ino) (newName : Name) : Tree :=
  let t := t.detachEntry od e
  let t := t.setEntries nd (⟨newName, e.inode⟩ :: t.entries nd)
  if t.type e.inode = .directory && od ≠ nd then
    let t := t.setNlink od (t.nlink od - 1)
    let t := t.setNlink nd (t.nlink nd + 1)
    { t with parent := update t.parent e.inode nd }
  else t

/-- The tests of `tmpfs_rename` on an entry that is there under the new name. -/
def renameConflict (source : Ino) (noreplace : Bool) (e : Entry) : Option VfsError :=
  if noreplace then some .exist
  else if t.type source = .directory && t.type e.inode ≠ .directory then some .notdir
  else if t.type source ≠ .directory && t.type e.inode = .directory then some .isdir
  else if t.type e.inode = .directory && t.entries e.inode ≠ [] then some .notempty
  else none

/-- `tmpfs_rename`. The loop that looks for the source above the new directory is `Chains.meets`; it has at most
    as many steps as there are inodes, unless it never ends. -/
def tmpfsRename (od : Ino) (oldName : Name) (nd : Ino) (newName : Name) (noreplace : Bool) : Tree × Reply :=
  match t.findEntry od oldName with
  | none => (t, .error .noent)
  | some old =>
    let source := old.inode
    let new := t.findEntry nd newName
    if new.any (fun e => e.inode = source) then (t, .ok none)
    else
      match new.bind (renameConflict t source noreplace) with
      | some e => (t, .error e)
      | none =>
        match if t.type source = .directory then meets t.parent source t.nextInode nd else some false with
        | none => (t, .stuck)
        | some true => (t, .error .inval)
        | some false =>
          let t :=
            match new with
            | none => t
            | some e => t.removeEntry nd e
          match t.findEntry od oldName with
          | none => (t, .panic)
          | some old => (t.moveEntry od old nd newName, .ok none)

/-- `tmpfs_put_inode`. -/
def tmpfsPutInode (i : Ino) : Tree × Reply :=
  let t := { t with references := update t.references i (t.references i - 1) }
  (t.inodeMaybeDestroy i, .ok none)

/-! ## Runs -/

inductive Call where
  | lookup (d : Ino) (name : Name) (memory : Bool)
  | create (d : Ino) (name : Name) (inode entry wrap : Bool)
  | mkdir (d : Ino) (name : Name) (inode entry wrap : Bool)
  | symlink (d : Ino) (name : Name) (inode target entry wrap : Bool)
  | mknod (d : Ino) (name : Name) (type : InodeType) (inode entry wrap : Bool)
  | link (i d : Ino) (name : Name) (entry : Bool)
  | unlink (d : Ino) (name : Name)
  | rmdir (d : Ino) (name : Name)
  | rename (od : Ino) (oldName : Name) (nd : Ino) (newName : Name) (noreplace : Bool)
  | put (i : Ino)
deriving DecidableEq

/-- The VFS holds the inode. -/
def Tree.Held (i : Ino) : Prop := t.live i = true ∧ t.references i ≠ 0

/-- The VFS holds the directory. -/
def Tree.HeldDir : Prop := t.Held d ∧ t.type d = .directory

/-- The VFS may make this call. -/
def Tree.Offers : Call → Prop
  | .lookup d .. | .create d .. | .mkdir d .. | .symlink d .. | .mknod d .. | .unlink d .. | .rmdir d .. =>
    t.HeldDir d
  | .link i d .. => t.Held i ∧ t.HeldDir d
  | .rename od _ nd .. => t.HeldDir od ∧ t.HeldDir nd
  | .put i => t.Held i

instance (t : Tree) (i : Ino) : Decidable (t.Held i) := inferInstanceAs (Decidable (_ ∧ _))

instance (t : Tree) (d : Ino) : Decidable (t.HeldDir d) := inferInstanceAs (Decidable (_ ∧ _))

instance (t : Tree) (c : Call) : Decidable (t.Offers c) :=
  match c with
  | .lookup d .. | .create d .. | .mkdir d .. | .symlink d .. | .mknod d .. | .unlink d .. | .rmdir d .. =>
    inferInstanceAs (Decidable (t.HeldDir d))
  | .link i d .. => inferInstanceAs (Decidable (t.Held i ∧ t.HeldDir d))
  | .rename od _ nd .. => inferInstanceAs (Decidable (t.HeldDir od ∧ t.HeldDir nd))
  | .put i => inferInstanceAs (Decidable (t.Held i))

/-- The operation. -/
def Tree.operate : Call → Tree × Reply
  | .lookup d name memory => tmpfsLookup t d name memory
  | .create d name inode entry wrap => tmpfsCreate t d name inode entry wrap
  | .mkdir d name inode entry wrap => tmpfsMkdir t d name inode entry wrap
  | .symlink d name inode target entry wrap => tmpfsSymlink t d name inode target entry wrap
  | .mknod d name type inode entry wrap => tmpfsMknod t d name type inode entry wrap
  | .link i d name entry => tmpfsLink t i d name entry
  | .unlink d name => tmpfsUnlink t d name
  | .rmdir d name => tmpfsRmdir t d name
  | .rename od oldName nd newName noreplace => tmpfsRename t od oldName nd newName noreplace
  | .put i => tmpfsPutInode t i

def Tree.serve (c : Call) : Tree × Reply := if t.Offers c then t.operate c else (t, .refused)

def Tree.step (c : Call) : Tree := (t.serve c).1

end Caffeinix.Tmpfs
