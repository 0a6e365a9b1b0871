import Caffeinix.Ext4.Disk

/-!
# `Ext4.Adapter` — what the adapter keeps of a volume (`fs/lwext4/caffeinix.c`)

The adapter keeps a path in each live inode, and it counts the open files of each inode in a table. A file that
loses its last name while it is open gets a name in the orphan directory, which the last close removes.

The fields `generation` and `removed` are not in the source. They tell for which inode an object was made, and
whether the name that it was found under has been removed: then its path has led nowhere at some time.
-/

namespace Caffeinix.Ext4

open NameTree

/-! ## Paths -/

/-- `VFS_PATH_MAX`. -/
def vfsPathMax : Nat := 512

/-- The characters of the names, and a slash before each. -/
def textLength (path : Path) : Nat := (path.map fun n => n.bytes.length + 1).sum

/-- `strlen` of a path: the root is a slash. -/
def strlen (path : Path) : Nat := if path = [] then 1 else textLength path

/-- `ext4fs_join`. -/
def ext4fsJoin (directory : Path) (name : Name) : Except VfsError Path :=
  if name.bytes = [] then .error .inval
  else if 255 < name.bytes.length then .error .nametoolong
  else if vfsPathMax < strlen directory + name.bytes.length + 2 then .error .nametoolong
  else .ok (directory ++ [name])

/-- `EXT4FS_ORPHAN_NAME`. -/
def ext4fsOrphanName : Name where
  bytes := [46, 99, 97, 102, 102, 101, 105, 110, 105, 120, 45, 111, 114, 112, 104, 97, 110, 115]
  plain := by decide

def hexDigit (n : Nat) : UInt8 := if n % 16 < 10 then 48 + (n % 16).toUInt8 else 87 + (n % 16).toUInt8

theorem hexDigit_plain {n : Nat} : hexDigit n ≠ 0 ∧ hexDigit n ≠ 47 := by
  have hall : ∀ m < 16, hexDigit m ≠ 0 ∧ hexDigit m ≠ 47 := by decide
  have hmod : hexDigit n = hexDigit (n % 16) := by
    unfold hexDigit
    rw [Nat.mod_mod]
  rw [hmod]
  exact hall _ (Nat.mod_lt n (by decide))

/-- The eight digits of an inode number. -/
def hexName (inode : Ino) : Name where
  bytes := [28, 24, 20, 16, 12, 8, 4, 0].map fun shift => hexDigit (inode >>> shift)
  plain := by
    refine ⟨fun h => ?_, fun h => ?_⟩ <;> obtain ⟨shift, -, hdigit⟩ := List.mem_map.mp h
    · exact hexDigit_plain.1 hdigit
    · exact hexDigit_plain.2 hdigit

/-- `EXT4FS_ORPHAN_DIRECTORY`. -/
def ext4fsOrphanDirectory : Path := [ext4fsOrphanName]

/-- `ext4fs_orphan_path`. -/
def ext4fsOrphanPath (inode : Ino) : Path := ext4fsOrphanDirectory ++ [hexName inode]

/-! ## Inodes, open files and the table -/

/-- A live `struct vfs_inode` with its `struct ext4fs_inode`. -/
structure Node where
  id : Nat
  path : Path
  number : Ino
  generation : Nat
  removed : Bool
deriving DecidableEq

/-- An open file: the `ext4_file` of its handle. -/
structure FileObject where
  id : Nat
  inode : Ino
  generation : Nat
deriving DecidableEq

/-- `struct ext4fs_open_inode`. -/
structure OpenInode where
  inode : Ino
  count : Nat
  orphaned : Bool
deriving DecidableEq

structure Mount where
  disk : Disk
  table : List OpenInode
  nodes : List Node
  files : List FileObject
  /-- for inodes and files to come -/
  nextId : Nat
  panic : Bool

/-- The entry of a table is in use, and for the inode. -/
def OpenInode.isFor (inode : Ino) (e : OpenInode) : Bool := (e.count != 0 || e.orphaned) && e.inode == inode

/-- `ext4fs_find_open_inode`. -/
def ext4fsFindOpenInode (table : List OpenInode) (inode : Ino) : Option OpenInode := table.find? (OpenInode.isFor inode)

/-- A change of the first entry that is so. -/
def changeFirst (p : OpenInode → Bool) (f : OpenInode → OpenInode) : List OpenInode → List OpenInode
  | [] => []
  | e :: table => if p e then f e :: table else e :: changeFirst p f table

/-- `ext4fs_get_open_inode`. -/
def ext4fsGetOpenInode (table : List OpenInode) (inode : Ino) : Except VfsError (List OpenInode) :=
  match ext4fsFindOpenInode table inode with
  | some _ => .ok (changeFirst (OpenInode.isFor inode) (fun e => { e with count := e.count + 1 }) table)
  | none =>
    if table.any fun e => e.count == 0 && !e.orphaned then
      .ok (changeFirst (fun e => e.count == 0 && !e.orphaned) (fun e => { e with inode := inode, count := 1 }) table)
    else .error .nospc

variable (m : Mount)

/-- Names have been removed: an inode whose path led somewhere and leads nowhere now has lost its name. -/
def Mount.settle (k : Disk) : Mount :=
  { m with
    disk := k
    nodes := m.nodes.map fun x =>
      if (m.disk.resolve x.path).isSome ∧ k.resolve x.path = none then { x with removed := true } else x }

/-- `ext4fs_put_open_inode`: the table and the disk, or a panic. `palloc` does not return without a page, so that
    nothing is said of the branch for this. -/
def ext4fsPutOpenInode (inode : Ino) (fault : Option RemoveFault) : Mount :=
  match ext4fsFindOpenInode m.table inode with
  | none => { m with panic := true }
  | some e =>
    if e.count = 0 then { m with panic := true }
    else
      let change := fun f : OpenInode → OpenInode => changeFirst (OpenInode.isFor inode) f m.table
      if e.count - 1 ≠ 0 then { m with table := change fun e => { e with count := e.count - 1 } }
      else if !e.orphaned then { m with table := change fun _ => ⟨0, 0, false⟩ }
      else
        match ext4Fremove m.disk (ext4fsOrphanPath inode) fault with
        | (k, none) => { m.settle k with table := change fun _ => ⟨0, 0, false⟩ }
        | (k, some _) => { m with disk := k, table := change fun e => { e with count := e.count - 1 } }

/-- What happens in `ext4fs_remove_locked`: the failures of lwext4. -/
structure Removal where
  link : Option Errno
  remove : Option RemoveFault
  undo : Option RemoveFault

/-- The end of `ext4fs_remove_locked` for a file that is not open, or has other names. -/
def Mount.removePlain (path : Path) (fault : Option RemoveFault) : Mount × Option VfsError :=
  match ext4Fremove m.disk path fault with
  | (k, none) => (m.settle k, none)
  | (k, some r) => ({ m with disk := k }, some (ext4fsResult r))

/-- The end of `ext4fs_remove_locked` for an open file that gets a name in the orphan directory. -/
def Mount.removeOrphan (path : Path) (inode : Ino) (r : Removal) : Mount × Option VfsError :=
  match ext4Flink m.disk path (ext4fsOrphanPath inode) r.link with
  | .error e => (m, some (ext4fsResult e))
  | .ok k =>
    match ext4Fremove k path r.remove with
    | (k, none) =>
      ({ m.settle k with
          table := changeFirst (OpenInode.isFor inode) (fun e => { e with orphaned := true }) m.table }, none)
    | (k, some e) => (m.settle (ext4Fremove k (ext4fsOrphanPath inode) r.undo).1, some (ext4fsResult e))

/-- `ext4fs_remove_locked`; the link count is that of the inode `raw`. -/
def ext4fsRemoveLocked (path : Path) (inode : Ino) (links : Nat) (r : Removal) : Mount × Option VfsError :=
  match ext4fsFindOpenInode m.table inode with
  | none => m.removePlain path r.remove
  | some e => if e.count = 0 ∨ links ≠ 1 then m.removePlain path r.remove else m.removeOrphan path inode r

/-! ## `ext4fs_rename` -/

/-- `ext4fs_rebase_inode_path`: the path of an inode at or below the old path. -/
def ext4fsRebaseInodePath (old new : Path) (apply : Bool) (path : Path) : Except VfsError Path :=
  if ¬ old <+: path then .ok path
  else if vfsPathMax ≤ strlen new + textLength (path.drop old.length) then .error .nametoolong
  else if !apply then .ok path
  else .ok (new ++ path.drop old.length)

/-- `ext4fs_rebase_paths`, over the live inodes. -/
def ext4fsRebasePaths (old new : Path) (apply : Bool) : List Node → Except VfsError (List Node)
  | [] => .ok []
  | x :: nodes =>
    match ext4fsRebaseInodePath old new apply x.path with
    | .error e => .error e
    | .ok path =>
      match ext4fsRebasePaths old new apply nodes with
      | .error e => .error e
      | .ok nodes => .ok ({ x with path := path } :: nodes)

/-- `ext4fs_directory_empty`. A directory that can not be read to its end seems to end there. -/
def ext4fsDirectoryEmpty (k : Disk) (path : Path) (fault : Option Errno) (readable : Bool) : Option VfsError :=
  match fault with
  | some r => some (ext4fsResult r)
  | none =>
    match k.resolve path with
    | none => some (ext4fsResult .noent)
    | some d =>
      if !k.directory d then some (ext4fsResult .noent)
      else if readable && !(k.entries d).isEmpty then some .notempty
      else none

inductive Reply where
  | ok
  | error (e : VfsError)
  | panic
deriving DecidableEq

/-- The arguments of `ext4fs_rename` and the failures of lwext4. -/
structure RenameCall where
  oldDirectory : Path
  oldName : Name
  newDirectory : Path
  newName : Name
  noreplace : Bool
  fillOld : Option Errno
  fillNew : Option Errno
  openDir : Option Errno
  readable : Bool
  removeDir : Option (Errno × Nat)
  removal : Removal
  rename : Option Errno

def RenameCall.oldPath (c : RenameCall) : Path := c.oldDirectory ++ [c.oldName]

def RenameCall.newPath (c : RenameCall) : Path := c.newDirectory ++ [c.newName]

/-- The end of `ext4fs_rename`, from `ext4_frename` on. -/
def ext4fsRenameFinish (old new : Path) (fault : Option Errno) : Mount × Reply :=
  match ext4Frename m.disk old new fault with
  | .error r => (m, .error (ext4fsResult r))
  | .ok k =>
    match ext4fsRebasePaths old new true m.nodes with
    | .error _ => ({ m with disk := k, panic := true }, .panic)
    | .ok nodes => ({ m with disk := k, nodes := nodes }, .ok)

/-- What is in the way of `ext4fs_rename` goes. -/
def ext4fsRenameRemove (c : RenameCall) (new : Path) (number : Ino) : Mount × Option VfsError :=
  if m.disk.directory number then
    match ext4DirRm m.disk new c.removeDir with
    | (k, none) => (m.settle k, none)
    | (k, some r) => (m.settle k, some (ext4fsResult r))
  else ext4fsRemoveLocked m new number (m.disk.links number) c.removal

/-- The middle of `ext4fs_rename`: the paths are tried, and what is in the way goes. -/
def ext4fsRenameReplace (c : RenameCall) (old new : Path) (destination : Option Ino) : Mount × Reply :=
  match ext4fsRebasePaths old new false m.nodes with
  | .error e => (m, .error e)
  | .ok _ =>
    match destination with
    | none => ext4fsRenameFinish m old new c.rename
    | some number =>
      match ext4fsRenameRemove m c new number with
      | (m, some e) => (m, .error e)
      | (m, none) => ext4fsRenameFinish m old new c.rename

/-- What `ext4fs_rename` asks of a destination that exists and is not the source. -/
def ext4fsRenameCheck (k : Disk) (c : RenameCall) (new : Path) (oldNumber newNumber : Ino) : Option VfsError :=
  if k.directory oldNumber ∧ ¬ k.directory newNumber then some .notdir
  else if ¬ k.directory oldNumber ∧ k.directory newNumber then some .isdir
  else if k.directory newNumber then ext4fsDirectoryEmpty k new c.openDir c.readable
  else none

/-- `ext4fs_rename`. -/
def ext4fsRename (c : RenameCall) : Mount × Reply :=
  match ext4fsJoin c.oldDirectory c.oldName, ext4fsJoin c.newDirectory c.newName with
  | .error e, _ => (m, .error e)
  | .ok _, .error e => (m, .error e)
  | .ok old, .ok new =>
    match ext4RawInodeFill m.disk old c.fillOld with
    | .error r => (m, .error (ext4fsResult r))
    | .ok oldNumber =>
      match ext4RawInodeFill m.disk new c.fillNew with
      | .ok newNumber =>
        if c.noreplace then (m, .error .exist)
        else if oldNumber = newNumber then (m, .ok)
        else
          match ext4fsRenameCheck m.disk c new oldNumber newNumber with
          | some e => (m, .error e)
          | none => ext4fsRenameReplace m c old new (some newNumber)
      | .error .noent => ext4fsRenameReplace m c old new none
      | .error r => (m, .error (ext4fsResult r))

end Caffeinix.Ext4
