import Caffeinix.Ext4.DiskInvariant
import Caffeinix.Ext4.Rename
import Caffeinix.Lib.Runs

/-!
# `Ext4.System` — the calls of the adapter and their runs (`fs/lwext4/caffeinix.c`)

What processes do with a mounted volume, call by call: each call is made through live inodes and open files,
which are given by their `id`. Directories, working directories and open descriptors are such inodes.

Left out are symbolic links, device files and times. What a transfer does with the bytes of a file is in
`Ext4.Transfer`; here it is a change of the file.
-/

namespace Caffeinix.Ext4

open NameTree Runs Mount

/-- What happens in `ext4fs_wrap`. -/
structure WrapCall where
  memory : Bool
  fill : Option Errno

variable (m : Mount)

/-- `ext4fs_wrap`: a live inode for a path. -/
def Mount.wrap (path : Path) (c : WrapCall) : Mount × Option VfsError :=
  if vfsPathMax ≤ strlen path then (m, some .nametoolong)
  else if !c.memory then (m, some .nomem)
  else
    match ext4RawInodeFill m.disk path c.fill with
    | .error r => (m, some (ext4fsResult r))
    | .ok i =>
      ({ m with nodes := ⟨m.nextId, path, i, m.disk.generation i, false⟩ :: m.nodes, nextId := m.nextId + 1 }, none)

/-- Where no inode is made nothing changes. -/
theorem wrap_error {m m' : Mount} {path : Path} {c : WrapCall} {e : VfsError} (h : m.wrap path c = (m', some e)) :
    m' = m := by
  unfold wrap at h
  split_ifs at h
  · injection h with h
    exact h.symm
  · injection h with h
    exact h.symm
  cases hfill : ext4RawInodeFill m.disk path c.fill with
  | error =>
    rw [hfill] at h
    injection h with h
    exact h.symm
  | ok =>
    rw [hfill] at h
    cases h

/-- `ext4fs_lookup`. -/
def ext4fsLookup (x : Node) (name : Name) (c : WrapCall) : Mount × Reply :=
  if x.path = [] ∧ name = ext4fsOrphanName then (m, .error .noent)
  else
    match ext4fsJoin x.path name with
    | .error e => (m, .error e)
    | .ok path =>
      match m.wrap path c with
      | (m, some e) => (m, .error e)
      | (m, none) => (m, .ok)

/-! ## Names -/

/-- What happens in `ext4fs_create` and `ext4fs_mkdir`: the numbers are those of the next free inodes. -/
structure CreateCall where
  name : Name
  mode : Nat
  numbers : List Ino
  openFault : Option Errno
  modeFault : Option Errno
  ownerFault : Option Errno
  touchFault : Option VfsError
  wrap : WrapCall
  undo : Option RemoveFault
  undoDir : Option (Errno × Nat)

/-- The name that was made goes again: `ext4_fremove`, or `ext4_dir_rm` of a directory. -/
def Mount.undoCreate (kind : Kind) (path : Path) (c : CreateCall) : Mount :=
  if kind = .directory then m.settle (ext4DirRm m.disk path c.undoDir).1
  else m.settle (ext4Fremove m.disk path c.undo).1

/-- The end of `ext4fs_create` and `ext4fs_mkdir`, when the name is there. -/
def Mount.finishCreate (kind : Kind) (path : Path) (c : CreateCall) : Mount × Reply :=
  match ext4ModeSet m.disk path c.mode c.modeFault with
  | .error r => (m.undoCreate kind path c, .error (ext4fsResult r))
  | .ok k =>
    match c.ownerFault, c.touchFault with
    | some r, _ => ({ m with disk := k }.undoCreate kind path c, .error (ext4fsResult r))
    | none, some e => ({ m with disk := k }.undoCreate kind path c, .error e)
    | none, none =>
      match { m with disk := k }.wrap path c.wrap with
      | (m, some e) => (m.undoCreate kind path c, .error e)
      | (m, none) => (m, .ok)

/-- `ext4fs_create` and `ext4fs_mkdir`. -/
def Mount.create (kind : Kind) (x : Node) (c : CreateCall) : Mount × Reply :=
  match ext4fsJoin x.path c.name with
  | .error e => (m, .error e)
  | .ok path =>
    match ext4Create m.disk kind path c.numbers c.openFault with
    | .error r => (m, .error (ext4fsResult r))
    | .ok (k, _) => { m with disk := k }.finishCreate kind path c

/-- `ext4fs_create`. -/
def ext4fsCreate (x : Node) (c : CreateCall) : Mount × Reply := m.create .file x c

/-- `ext4fs_mkdir`. -/
def ext4fsMkdir (x : Node) (c : CreateCall) : Mount × Reply := m.create .directory x c

def replyOf (m : Mount × Option VfsError) : Mount × Reply :=
  match m with
  | (m, some e) => (m, .error e)
  | (m, none) => (m, .ok)

/-- `ext4fs_unlink`. -/
def ext4fsUnlink (x : Node) (name : Name) (fill : Option Errno) (r : Removal) : Mount × Reply :=
  match ext4fsJoin x.path name with
  | .error e => (m, .error e)
  | .ok path =>
    match ext4RawInodeFill m.disk path fill with
    | .error r => (m, .error (ext4fsResult r))
    | .ok inode => replyOf (ext4fsRemoveLocked m path inode (m.disk.links inode) r)

/-- `ext4fs_rmdir`. -/
def ext4fsRmdir (x : Node) (name : Name) (openDir : Option Errno) (readable : Bool)
    (removeDir : Option (Errno × Nat)) : Mount × Reply :=
  match ext4fsJoin x.path name with
  | .error e => (m, .error e)
  | .ok path =>
    match ext4fsDirectoryEmpty m.disk path openDir readable with
    | some e => (m, .error e)
    | none =>
      match ext4DirRm m.disk path removeDir with
      | (k, some r) => (m.settle k, .error (ext4fsResult r))
      | (k, none) => (m.settle k, .ok)

/-- `ext4fs_link`. -/
def ext4fsLink (x y : Node) (name : Name) (fault : Option Errno) : Mount × Reply :=
  match ext4fsJoin y.path name with
  | .error e => (m, .error e)
  | .ok path =>
    match ext4Flink m.disk x.path path fault with
    | .error r => (m, .error (ext4fsResult r))
    | .ok k => ({ m with disk := k }, .ok)

/-! ## Files -/

/-- `ext4fs_file_open`; `memory` is for the handle. -/
def ext4fsFileOpen (x : Node) (memory : Bool) (fault : Option Errno) : Mount × Reply :=
  if !memory then (m, .error .nomem)
  else
    match ext4Fopen2 m.disk x.path fault with
    | .error r => (m, .error (ext4fsResult r))
    | .ok inode =>
      match ext4fsGetOpenInode m.table inode with
      | .error e => (m, .error e)
      | .ok table =>
        ({ m with
            table := table
            files := ⟨m.nextId, inode, m.disk.generation inode⟩ :: m.files
            nextId := m.nextId + 1 }, .ok)

/-- `ext4fs_file_release`. -/
def ext4fsFileRelease (f : FileObject) (fault : Option RemoveFault) : Mount :=
  ext4fsPutOpenInode { m with files := m.files.erase f } f.inode fault

/-- The bytes of the inode of a number change. -/
def Mount.store (i : Ino) (change : Inode → Inode) : Mount :=
  { m with disk := { m.disk with file := Function.update m.disk.file i (change (m.disk.file i)) } }

/-- `ext4fs_truncate`, which finds the inode by its number. -/
def ext4fsTruncate (x : Node) (change : Inode → Inode) : Mount × Reply :=
  if m.disk.kind x.number = .file then (m.store x.number change, .ok) else (m, .error (ext4fsResult .noent))

/-- `ext4fs_setattr` of the mode, which finds the inode by its number. -/
def ext4fsSetattr (x : Node) (mode : Nat) (fault : Option Errno) : Mount × Reply :=
  match fault with
  | some r => (m, .error (ext4fsResult r))
  | none => ({ m with disk := { m.disk with mode := Function.update m.disk.mode x.number mode } }, .ok)

/-- `ext4fs_getattr`, which finds the inode by its number: every object has one from `ext4fs_wrap`. -/
def ext4fsGetattr (x : Node) (fault : Option Errno) : Except VfsError Attributes :=
  match ext4RawInodeFillByNumber m.disk x.number fault with
  | .error r => .error (ext4fsResult r)
  | .ok attributes => .ok attributes

/-! ## Rules for the calls -/

section Rules

variable {I J : Mount → Prop} {m : Mount} {kind : Kind} {x : Node} {old new path : Path}

variable {name : Name}

/-- What `ext4fs_lookup` makes is an object for the path of the name. -/
theorem lookup_ok {c : WrapCall} (h : (ext4fsLookup m x name c).2 = .ok) :
    ∃ i, m.disk.resolve (x.path ++ [name]) = some i ∧ (ext4fsLookup m x name c).1 =
      { m with
        nodes := ⟨m.nextId, x.path ++ [name], i, m.disk.generation i, false⟩ :: m.nodes
        nextId := m.nextId + 1 } := by
  unfold ext4fsLookup at h ⊢
  split_ifs at h ⊢
  rcases hjoin : ext4fsJoin x.path name with _ | path <;> rw [hjoin] at h
  · cases h
  obtain rfl := join_ok hjoin
  unfold wrap at h ⊢
  simp only at h ⊢
  split_ifs at h ⊢
  cases hfill : ext4RawInodeFill m.disk (x.path ++ [name]) c.fill with
  | error =>
    rw [hfill] at h
    cases h
  | ok i => exact ⟨i, rawInodeFill_ok hfill, rfl⟩

theorem lookup_rule {c : WrapCall} (h : I m) (hwrap : ∀ path, I (m.wrap path c).1) :
    I (ext4fsLookup m x name c).1 := by
  unfold ext4fsLookup
  split_ifs
  · exact h
  cases ext4fsJoin x.path name with
  | error => exact h
  | ok path =>
    have hdone := hwrap path
    simp only
    rcases hresult : m.wrap path c with ⟨m', _ | e⟩ <;> rw [hresult] at hdone <;> exact hdone

theorem unlink_rule {fill : Option Errno} {r : Removal} (h : I m)
    (hremove : ∀ i, m.disk.resolve (x.path ++ [name]) = some i →
      I (ext4fsRemoveLocked m (x.path ++ [name]) i (m.disk.links i) r).1) :
    I (ext4fsUnlink m x name fill r).1 := by
  unfold ext4fsUnlink
  split
  · exact h
  rename_i hjoin
  obtain rfl := join_ok hjoin
  split
  · exact h
  rename_i i hfill
  have hdone := hremove i (rawInodeFill_ok hfill)
  rcases hresult : ext4fsRemoveLocked m (x.path ++ [name]) i (m.disk.links i) r with ⟨m', _ | e⟩ <;>
    rw [hresult] at hdone <;> exact hdone

/-- A directory that can be read and is said to be empty has no entries. -/
theorem directoryEmpty_none {k : Disk} {fault : Option Errno} {y : Ino}
    (h : ext4fsDirectoryEmpty k path fault true = none) (hpath : k.resolve path = some y) : k.entries y = [] := by
  unfold ext4fsDirectoryEmpty at h
  cases fault with
  | some => cases h
  | none =>
    rw [hpath] at h
    simp only at h
    split_ifs at h with hdir hentries
    rw [Bool.true_and, Bool.not_eq_true', Bool.not_eq_false, List.isEmpty_iff] at hentries
    exact hentries

theorem rmdir_rule {openDir : Option Errno} {removeDir : Option (Errno × Nat)}
    (h : I m) (hremove : (∀ y, m.disk.resolve (x.path ++ [name]) = some y → m.disk.entries y = []) →
      I (m.settle (ext4DirRm m.disk (x.path ++ [name]) removeDir).1)) :
    I (ext4fsRmdir m x name openDir true removeDir).1 := by
  unfold ext4fsRmdir
  split
  · exact h
  rename_i hjoin
  obtain rfl := join_ok hjoin
  split
  · exact h
  rename_i hempty
  have hdone := hremove fun y => directoryEmpty_none hempty
  rcases hrm : ext4DirRm m.disk (x.path ++ [name]) removeDir with ⟨k, _ | e⟩ <;> rw [hrm] at hdone <;> exact hdone

theorem link_rule {y : Node} {fault : Option Errno} (h : I m)
    (hlink : ∀ k, ext4Flink m.disk x.path (y.path ++ [name]) fault = .ok k → I { m with disk := k }) :
    I (ext4fsLink m x y name fault).1 := by
  unfold ext4fsLink
  split
  · exact h
  rename_i hjoin
  obtain rfl := join_ok hjoin
  split
  · exact h
  · rename_i k hresult
    exact hlink k hresult

/-- What holds after `ext4fs_create` or `ext4fs_mkdir`: `J` is so once the name is there. -/
theorem create_rule {c : CreateCall} (h : I m)
    (hopen : ∀ k i, ext4Create m.disk kind (x.path ++ [c.name]) c.numbers c.openFault = .ok (k, i) →
      J { m with disk := k })
    (hmode : ∀ m mode, J m → J { m with disk := { m.disk with mode := mode } })
    (hwrap : ∀ m, J m → I (m.wrap (x.path ++ [c.name]) c.wrap).1)
    (hundo : (m.create kind x c).2 ≠ .ok → ∀ m, J m → I (m.undoCreate kind (x.path ++ [c.name]) c)) :
    I (m.create kind x c).1 := by
  unfold create at hundo ⊢
  split
  · exact h
  rename_i hjoin
  obtain rfl := join_ok hjoin
  rw [hjoin] at hundo
  simp only at hundo ⊢
  split
  · exact h
  rename_i k i hcreate
  have hJ := hopen k i hcreate
  rw [hcreate] at hundo
  unfold finishCreate at hundo ⊢
  rcases hset : ext4ModeSet k (x.path ++ [c.name]) c.mode c.modeFault with _ | k'
  · simp only [hset] at hundo ⊢
    exact hundo nofun _ hJ
  have hJ' : J { m with disk := k' } := by
    obtain ⟨mode, rfl⟩ := modeSet_ok hset
    exact hmode _ mode hJ
  simp only [hset] at hundo ⊢
  cases howner : c.ownerFault with
  | some =>
    rw [howner] at hundo
    exact hundo nofun _ hJ'
  | none =>
    cases htouch : c.touchFault with
    | some =>
      rw [howner, htouch] at hundo
      exact hundo nofun _ hJ'
    | none =>
      rw [howner, htouch] at hundo
      have hI := hwrap _ hJ'
      rcases hw : wrap { m with disk := k' } (x.path ++ [c.name]) c.wrap with ⟨m', result⟩
      rw [hw] at hundo hI
      cases result with
      | none => exact hI
      | some =>
        rw [wrap_error hw]
        exact hundo nofun _ hJ'

theorem removeLocked_paths {inode : Ino} {links : Nat} {r : Removal} :
    (ext4fsRemoveLocked m path inode links r).1.nodes.map Node.path = m.nodes.map Node.path := by
  have hplain : (m.removePlain path r.remove).1.nodes.map Node.path = m.nodes.map Node.path := by
    unfold removePlain
    rcases ext4Fremove m.disk path r.remove with ⟨k, _ | e⟩
    · exact settle_paths
    · rfl
  unfold ext4fsRemoveLocked
  split
  · exact hplain
  split_ifs
  · exact hplain
  unfold removeOrphan
  cases ext4Flink m.disk path (ext4fsOrphanPath inode) r.link with
  | error => rfl
  | ok k =>
    simp only
    rcases ext4Fremove k path r.remove with ⟨k', _ | e⟩ <;> exact settle_paths

theorem renameRemove_paths (m : Mount) (c : RenameCall) (new : Path) (number : Ino) :
    (ext4fsRenameRemove m c new number).1.nodes.map Node.path = m.nodes.map Node.path := by
  unfold ext4fsRenameRemove
  split_ifs
  · rcases ext4DirRm m.disk new c.removeDir with ⟨k, _ | e⟩ <;> exact settle_paths
  · exact removeLocked_paths

/-- What holds after `ext4fs_rename`: `J` is so until the renaming itself. -/
theorem rename_rule {c : RenameCall} (h : J m)
    (hremove : ∀ x number, m.disk.resolve c.oldPath = some x → m.disk.resolve c.newPath = some number → x ≠ number →
      (c.readable = true → m.disk.directory number = true → m.disk.entries number = []) →
      J (ext4fsRenameRemove m c c.newPath number).1)
    (hstay : ∀ m, J m → I m)
    (hmove : ∀ m k, J m → ext4Frename m.disk c.oldPath c.newPath c.rename = .ok k →
      I { m with disk := k, nodes := m.nodes.map fun y => { y with path := rebased c.oldPath c.newPath y.path } }) :
    I (ext4fsRename m c).1 := by
  -- the end of the call, from a state with the same paths
  have hfinish : ∀ {m' tried}, J m' → m'.nodes.map Node.path = m.nodes.map Node.path →
      ext4fsRebasePaths c.oldPath c.newPath false m.nodes = .ok tried →
      I (ext4fsRenameFinish m' c.oldPath c.newPath c.rename).1 := by
    intro m' tried hm' hpaths htry
    unfold ext4fsRenameFinish
    cases hrename : ext4Frename m'.disk c.oldPath c.newPath c.rename with
    | error => exact hstay m' hm'
    | ok k =>
      rw [rebasePaths_apply htry hpaths]
      exact hmove m' k hm' hrename
  unfold ext4fsRename
  rcases hjoin : ext4fsJoin c.oldDirectory c.oldName with _ | old
  · exact hstay m h
  rcases hjoin' : ext4fsJoin c.newDirectory c.newName with _ | new
  · exact hstay m h
  obtain rfl : old = c.oldPath := join_ok hjoin
  obtain rfl : new = c.newPath := join_ok hjoin'
  simp only
  split
  · exact hstay m h
  rename_i x hfill
  cases hfill' : ext4RawInodeFill m.disk c.newPath c.fillNew with
  | error r =>
    cases r with
    | noent =>
      unfold ext4fsRenameReplace
      cases htry : ext4fsRebasePaths c.oldPath c.newPath false m.nodes with
      | error => exact hstay m h
      | ok => exact hfinish h rfl htry
    | _ => exact hstay m h
  | ok number =>
    have hnew := rawInodeFill_ok hfill'
    simp only
    split
    · exact hstay m h
    split_ifs with hsame
    · exact hstay m h
    split
    · exact hstay m h
    rename_i hcheck
    have hI := hremove x number (rawInodeFill_ok hfill) hnew hsame
      (renameCheck_empty hcheck hnew)
    have hpaths := renameRemove_paths m c c.newPath number
    unfold ext4fsRenameReplace
    split
    · exact hstay m h
    rename_i htry
    simp only
    rcases hresult : ext4fsRenameRemove m c c.newPath number with ⟨m', _ | e⟩
    · rw [hresult] at hI hpaths
      exact hfinish hI hpaths htry
    · rw [hresult] at hI
      exact hstay m' hI

end Rules

/-! ## Events -/

/-- What is done with the volume. A renaming has the paths of its two directories from their inodes. -/
inductive Event where
  | lookup (directory : Nat) (name : Name) (wrap : WrapCall)
  | create (directory : Nat) (call : CreateCall)
  | mkdir (directory : Nat) (call : CreateCall)
  | unlink (directory : Nat) (name : Name) (fill : Option Errno) (removal : Removal)
  | rmdir (directory : Nat) (name : Name) (openDir : Option Errno) (readable : Bool)
      (removeDir : Option (Errno × Nat))
  | rename (old new : Nat) (call : RenameCall)
  | link (source directory : Nat) (name : Name) (fault : Option Errno)
  | openFile (inode : Nat) (memory : Bool) (fault : Option Errno)
  | write (file : Nat) (change : Inode → Inode)
  | truncate (inode : Nat) (change : Inode → Inode)
  | setattr (inode : Nat) (mode : Nat) (fault : Option Errno)
  | release (file : Nat) (fault : Option RemoveFault)
  | put (inode : Nat)

def Mount.node (m : Mount) (id : Nat) : Option Node := m.nodes.find? fun x => x.id = id

def Mount.object (m : Mount) (id : Nat) : Option FileObject := m.files.find? fun f => f.id = id

/-- The call with the paths of two inodes. -/
def RenameCall.between (c : RenameCall) (x y : Node) : RenameCall :=
  { c with oldDirectory := x.path, newDirectory := y.path }

/-- `vfs_rename` between two directories: nothing is moved below itself. -/
def Mount.rename (m : Mount) (x y : Node) (c : RenameCall) : Mount × Reply :=
  if (c.between x y).oldPath <+: y.path then (m, .error .inval) else ext4fsRename m (c.between x y)

/-! ## Steps -/

def Mount.step (m : Mount) : Event → Mount
  | .lookup directory name wrap =>
    match m.node directory with
    | none => m
    | some x => (ext4fsLookup m x name wrap).1
  | .create directory call =>
    match m.node directory with
    | none => m
    | some x => (ext4fsCreate m x call).1
  | .mkdir directory call =>
    match m.node directory with
    | none => m
    | some x => (ext4fsMkdir m x call).1
  | .unlink directory name fill removal =>
    match m.node directory with
    | none => m
    | some x => (ext4fsUnlink m x name fill removal).1
  | .rmdir directory name openDir readable removeDir =>
    match m.node directory with
    | none => m
    | some x => (ext4fsRmdir m x name openDir readable removeDir).1
  | .rename old new call =>
    match m.node old, m.node new with
    | some x, some y => (m.rename x y call).1
    | _, _ => m
  | .link source directory name fault =>
    match m.node source, m.node directory with
    | some x, some y => (ext4fsLink m x y name fault).1
    | _, _ => m
  | .openFile inode memory fault =>
    match m.node inode with
    | none => m
    | some x => (ext4fsFileOpen m x memory fault).1
  | .write file change =>
    match m.object file with
    | none => m
    | some f => m.store f.inode change
  | .truncate inode change =>
    match m.node inode with
    | none => m
    | some x => (ext4fsTruncate m x change).1
  | .setattr inode mode fault =>
    match m.node inode with
    | none => m
    | some x => (ext4fsSetattr m x mode fault).1
  | .release file fault =>
    match m.object file with
    | none => m
    | some f => ext4fsFileRelease m f fault
  | .put inode => { m with nodes := m.nodes.filter fun x => x.id ≠ inode }

variable {J : Mount → Prop} {m : Mount}

/-- A call on an inode, if it is there. -/
theorem found_rule {o : Option Node} {call : Node → Mount} (hsame : J m) : (∀ x, o = some x → J (call x)) →
    J (match o with
      | none => m
      | some x => call x) := by
  intro hcall
  cases o with
  | none => exact hsame
  | some x => exact hcall x rfl

/-- A call on two inodes, if both are there. -/
theorem both_rule {o o' : Option Node} {call : Node → Node → Mount} (hsame : J m) :
    (∀ x y, o = some x → o' = some y → J (call x y)) →
    J (match o, o' with
      | some x, some y => call x y
      | _, _ => m) := by
  intro hcall
  cases o with
  | none => exact hsame
  | some x =>
    cases o' with
    | none => exact hsame
    | some y => exact hcall x y rfl rfl

/-- The volume is mounted, with an inode for its root. -/
def mounted (k : Disk) : Mount :=
  ⟨k, List.replicate 100 ⟨0, 0, false⟩, [⟨0, [], root, k.generation root, false⟩], [], 1, false⟩

end Caffeinix.Ext4
