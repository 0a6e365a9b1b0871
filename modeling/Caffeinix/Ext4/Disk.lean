import Caffeinix.Ext4.File
import Caffeinix.Lib.Keyed
import Caffeinix.Lib.NameTree
import Caffeinix.Lib.Weights

/-!
# `Ext4.Disk` — directories and inodes of lwext4 (`fs/lwext4/src/ext4.c`)

The inodes of a volume with their entries, link counts and contents, and the operations of lwext4 on paths.
A path is a list of names from the root. An inode number is used again when the inode has been freed, so that
`generation` tells which inode of the number it is. The entries `.` and `..` and the link counts of directories
are not here.

An operation takes place at once, and as a whole or, if it fails, not at all. Two of them are more: a file is
emptied before it is removed, and a directory is emptied entry by entry. The reason of a failure may be one that is
not in the model (the device, the journal, no space, no memory): the argument `fault`. Both are conditions on the
volume and its users. `ext4_frename`, `ext4_flink` and `ext4_fremove` do not look at the result of
`ext4_trans_stop`, so that a commit which fails goes unseen; here it succeeds. And `ext4fs_rmdir` does not take the
mount's lock, so that another call may come between its steps; here none does.
-/

namespace Caffeinix.Ext4

open Option NameTree List
open Function (update)

abbrev Ino := Nat

/-- What stands between two slashes of a path. -/
@[ext]
structure Name where
  bytes : List UInt8
  plain : 0 ∉ bytes ∧ 47 ∉ bytes
deriving DecidableEq

abbrev Path := List Name

/-- The type of an inode; `special` are symbolic links, devices and the like. -/
inductive Kind where
  | file
  | directory
  | special
deriving DecidableEq

structure Disk where
  entries : Ino → List (Entry Name Ino)
  kind : Ino → Kind
  links : Ino → Nat
  /-- allocated -/
  live : Ino → Bool
  file : Ino → Inode
  mode : Ino → Nat
  generation : Ino → Nat
  /-- how many inodes the volume has room for -/
  capacity : Nat

/-- `EXT4_INODE_ROOT_INDEX`. -/
def root : Ino := 2

/-- An entry is found for its name. -/
def exact (stored name : Name) : Bool := stored == name

theorem exact_iff {stored name : Name} : exact stored name = true ↔ stored = name := beq_iff_eq

variable (k : Disk)

def Disk.directory (i : Ino) : Bool := k.kind i == .directory

/-- What a path leads to. -/
def Disk.resolve (path : Path) : Option Ino := walk exact k.entries root path

/-- The directory of the last name, and this name. -/
def Disk.parent (path : Path) : Option (Ino × Name) :=
  match path.getLast? with
  | none => none
  | some n =>
    match k.resolve path.dropLast with
    | none => none
    | some d => if k.directory d then some (d, n) else none

/-- The directory and the entry of a path. -/
def Disk.locate (path : Path) : Option (Ino × Entry Name Ino) :=
  match k.parent path with
  | none => none
  | some (d, n) => (find exact k.entries d n).map fun e => (d, e)

/-! ## Changes -/

/-- A name for the inode, which gets a link. -/
def Disk.link (d : Ino) (n : Name) (i : Ino) : Disk :=
  { k with entries := add k.entries d ⟨n, i⟩, links := update k.links i (k.links i + 1) }

/-- The inode has no bytes any more. -/
def Disk.emptied (i : Ino) : Disk := { k with file := update k.file i ⟨0, fun _ => none⟩ }

/-- The inode is freed. -/
def Disk.free (i : Ino) : Disk :=
  { k.emptied i with
    live := update k.live i false
    generation := update k.generation i (k.generation i + 1) }

/-- The entry goes, and a link of the inode. -/
def Disk.unname (d : Ino) (e : Entry Name Ino) : Disk :=
  { k with entries := remove k.entries d e, links := update k.links e.target (k.links e.target - 1) }

/-- The entry of a file goes; without links the file is freed. -/
def Disk.unlink (d : Ino) (e : Entry Name Ino) : Disk :=
  if k.links e.target - 1 = 0 then (k.unname d e).free e.target else k.unname d e

/-- The entry goes, and its inode with all its links. -/
def Disk.erase (d : Ino) (e : Entry Name Ino) : Disk :=
  { k with entries := remove k.entries d e, links := update k.links e.target 0 }.free e.target

/-- An entry moves. -/
def Disk.move (od : Ino) (e : Entry Name Ino) (nd : Ino) (n : Name) : Disk :=
  { k with entries := remove (add k.entries nd ⟨n, e.target⟩) od e }

/-- A new inode with one name. -/
def Disk.make (d : Ino) (n : Name) (i : Ino) (kind : Kind) : Disk :=
  { k with
    entries := add k.entries d ⟨n, i⟩
    kind := update k.kind i kind
    links := update k.links i 1
    live := update k.live i true
    file := update k.file i ⟨0, fun _ => none⟩ }

/-- The entries below a directory, each after those below it. -/
def Disk.below (k : Disk) : Nat → Ino → List (Ino × Entry Name Ino)
  | 0, _ => []
  | depth + 1, d => (k.entries d).flatMap fun e => k.below depth e.target ++ [(d, e)]

/-! ## The operations -/

/-- `ext4_raw_inode_fill`. -/
def ext4RawInodeFill (path : Path) (fault : Option Errno) : Except Errno Ino :=
  match fault with
  | some r => .error r
  | none =>
    match k.resolve path with
    | none => .error .noent
    | some i => .ok i

/-- `ext4_flink`. -/
def ext4Flink (path hardlink : Path) (fault : Option Errno) : Except Errno Disk :=
  match fault with
  | some r => .error r
  | none =>
    match k.resolve path with
    | none => .error .noent
    | some i =>
      if k.directory i then .error .inval
      else
        match k.parent hardlink with
        | none => .error .noent
        | some (d, n) => if (find exact k.entries d n).isSome then .error .exist else .ok (k.link d n i)

/-- A failure of `ext4_fremove`, and whether the file has been emptied before it. -/
structure RemoveFault where
  errno : Errno
  emptied : Bool

/-- `ext4_fremove`. Nothing is done with a directory, and nothing is said. -/
def ext4Fremove (path : Path) (fault : Option RemoveFault) : Disk × Option Errno :=
  if path = [] then (k, none)
  else
    match k.locate path with
    | none => (k, some .noent)
    | some (d, e) =>
      if k.directory e.target then (k, none)
      else
        match fault with
        | some f => (if f.emptied ∧ k.links e.target = 1 then k.emptied e.target else k, some f.errno)
        | none => (k.unlink d e, none)

/-- `ext4_dir_rm`: the directory with all that is in it. A failure comes after a number of entries have been
    removed. -/
def ext4DirRm (path : Path) (fault : Option (Errno × Nat)) : Disk × Option Errno :=
  match k.locate path with
  | none => (k, some .noent)
  | some (d, e) =>
    if !k.directory e.target then (k, some .noent)
    else
      let erased := fun l : List (Ino × Entry Name Ino) => l.foldl (fun k r => k.erase r.1 r.2) k
      match fault with
      | some (r, n) => (erased ((k.below k.capacity e.target).take n), some r)
      | none => ((erased (k.below k.capacity e.target)).erase d e, none)

/-- `ext4_frename`. -/
def ext4Frename (path newPath : Path) (fault : Option Errno) : Except Errno Disk :=
  match fault with
  | some r => .error r
  | none =>
    match k.locate path with
    | none => .error .noent
    | some (od, e) =>
      match k.parent newPath with
      | none => .error .noent
      | some (nd, n) => if (find exact k.entries nd n).isSome then .error .exist else .ok (k.move od e nd n)

/-- `ext4_generic_open2` with `O_CREAT`, from a directory on: the directories on the way that are not there are
    made, each with the next of the free numbers. A file that is there is opened. -/
def Disk.openCreate (kind : Kind) : Disk → Ino → Path → List Ino → Except Errno (Disk × Ino)
  | k, d, [], _ => .ok (k, d)
  | k, d, n :: path, numbers =>
    match find exact k.entries d n with
    | some e =>
      if path = [] then if k.kind e.target = kind then .ok (k, e.target) else .error .noent
      else if k.directory e.target then openCreate kind k e.target path numbers
      else .error .noent
    | none =>
      match numbers with
      | [] => .error .nospc
      | i :: numbers =>
        if k.live i then .error .nospc
        else openCreate kind (k.make d n i (if path = [] then kind else .directory)) i path numbers

/-- `ext4_fopen2` with `O_CREAT`, and `ext4_dir_mk`. -/
def ext4Create (kind : Kind) (path : Path) (numbers : List Ino) (fault : Option Errno) :
    Except Errno (Disk × Ino) :=
  match fault with
  | some r => .error r
  | none => if path = [] ∧ kind ≠ .directory then .error .noent else k.openCreate kind root path numbers

/-- `ext4_fopen2` of a regular file. -/
def ext4Fopen2 (path : Path) (fault : Option Errno) : Except Errno Ino :=
  match fault with
  | some r => .error r
  | none =>
    match k.resolve path with
    | none => .error .noent
    | some i => if k.kind i = .file then .ok i else .error .noent

/-- `ext4_mode_set`. -/
def ext4ModeSet (path : Path) (mode : Nat) (fault : Option Errno) : Except Errno Disk :=
  match fault with
  | some r => .error r
  | none =>
    match k.resolve path with
    | none => .error .noent
    | some i => .ok { k with mode := update k.mode i mode }

/-- The fields that `ext4fs_refresh` takes from a raw inode, apart from owners, blocks and times. -/
structure Attributes where
  number : Ino
  kind : Kind
  mode : Nat
  nlink : Nat
  size : Nat

/-- `ext4_raw_inode_fill_by_number`. -/
def ext4RawInodeFillByNumber (number : Ino) (fault : Option Errno) : Except Errno Attributes :=
  match fault with
  | some r => .error r
  | none => .ok ⟨number, k.kind number, k.mode number, k.links number, (k.file number).size⟩

/-! ## What a volume is like -/

/-- How many entries of a directory name the inode. -/
def Disk.naming (i d : Ino) : Nat := (k.entries d).countP fun e => e.target = i

/-- Directories have names once, and what is not a directory has no entries. -/
structure TreeOk (k : Disk) : Prop where
  names : ∀ d, Keyed Entry.name (k.entries d)
  plain : ∀ d, k.directory d = false → k.entries d = []

structure DiskOk (k : Disk) : Prop extends TreeOk k where
  /-- what has been freed has no entries and no names -/
  dead : ∀ d, k.live d = false → k.entries d = []
  target : ∀ d, ∀ e ∈ k.entries d, k.live e.target = true
  /-- a directory has one name, and the root none -/
  single : ∀ c, ∀ e ∈ k.entries c, ∀ d, ∀ e' ∈ k.entries d, e.target = e'.target → k.directory e.target = true →
    c = d ∧ e = e'
  rootLive : k.live root = true
  rootKind : k.kind root = .directory
  rootUnnamed : ∀ d, ∀ e ∈ k.entries d, e.target ≠ root
  links : ∀ i, k.live i = true → k.directory i = false → Weighs (k.naming i) (k.links i)

variable {k k' : Disk} {path old new : Path} {c d i x : Ino} {n : Name} {e : Entry Name Ino} {fault : Option Errno}

theorem parent_some (h : k.parent path = some (d, n)) :
    path = path.dropLast ++ [n] ∧ k.resolve path.dropLast = some d ∧ k.directory d = true := by
  unfold Disk.parent at h
  split at h
  · cases h
  rename_i n' hlast
  split at h
  · cases h
  rename_i hresolve
  split_ifs at h with hdir
  injection h with h
  injection h with hd hn
  rw [← hd, ← hn]
  exact ⟨(dropLast_append_getLast? n' hlast).symm, hresolve, hdir⟩

theorem parent_append (h : k.resolve path = some d) (hdir : k.directory d = true) (n : Name) :
    k.parent (path ++ [n]) = some (d, n) := by
  unfold Disk.parent
  rw [getLast?_append, getLast?_singleton, some_or, dropLast_concat]
  rw [h]
  simp only
  rw [if_pos hdir]

theorem locate_some (h : k.locate path = some (d, e)) :
    path = path.dropLast ++ [e.name] ∧ k.resolve path.dropLast = some d ∧ k.directory d = true ∧ e ∈ k.entries d ∧
      find exact k.entries d e.name = some e := by
  unfold Disk.locate at h
  split at h
  · cases h
  rename_i hparent
  obtain ⟨e', hfind, heq⟩ := map_eq_some_iff.mp h
  injection heq with hd he
  rw [← hd, ← he]
  obtain ⟨hpath, hresolve, hdir⟩ := parent_some hparent
  obtain ⟨hmem, hname⟩ := find_mem hfind
  rw [exact_iff.mp hname]
  exact ⟨hpath, hresolve, hdir, hmem, hfind⟩

theorem locate_of_find (hparent : k.parent path = some (d, n)) (hfind : find exact k.entries d n = some e) :
    k.locate path = some (d, e) := by
  unfold Disk.locate
  rw [hparent]
  simp only
  rw [hfind]
  rfl

theorem locate_resolve (h : k.locate path = some (d, e)) :
    k.resolve path = some e.target ∧
      visits exact k.entries root path = visits exact k.entries root path.dropLast ++ [e.target] := by
  obtain ⟨hpath, hresolve, -, -, hfind⟩ := locate_some h
  have hone : visits exact k.entries d [e.name] = [e.target] := by
    rw [visits_cons hfind]
    rfl
  constructor
  · unfold Disk.resolve at hresolve ⊢
    rw [hpath, walk_append, hresolve, bind_some, walk_singleton, hfind]
    rfl
  · conv_lhs => rw [hpath]
    rw [visits_append hresolve, hone]

/-- A path to something below the root has an entry. -/
theorem locate_of_resolve (hk : ∀ d, k.directory d = false → k.entries d = []) (h : k.resolve path = some x)
    (hne : path ≠ []) : ∃ d e, k.locate path = some (d, e) ∧ e.target = x := by
  have hpath : path = path.dropLast ++ [path.getLast hne] := (dropLast_append_getLast hne).symm
  unfold Disk.resolve at h
  rw [hpath, walk_append] at h
  obtain ⟨d, hd, hx⟩ := bind_eq_some_iff.mp h
  rw [walk_singleton] at hx
  obtain ⟨e, he, htarget⟩ := map_eq_some_iff.mp hx
  have hdir : k.directory d = true := by
    by_contra hplain
    rw [Bool.not_eq_true] at hplain
    have hmem := (find_mem he).1
    rw [hk d hplain] at hmem
    cases hmem
  refine ⟨d, e, ?_, htarget⟩
  rw [hpath]
  exact locate_of_find (parent_append hd hdir _) he

theorem rawInodeFill_ok (h : ext4RawInodeFill k path fault = .ok i) : k.resolve path = some i := by
  unfold ext4RawInodeFill at h
  split at h
  · cases h
  split at h
  · cases h
  rename_i hresolve
  injection h with h
  rw [hresolve, h]

theorem rawInodeFill_fault (h : ext4RawInodeFill k path fault = .ok i) : fault = none := by
  cases fault with
  | none => rfl
  | some => cases h

theorem modeSet_ok {mode : Nat} (h : ext4ModeSet k path mode fault = .ok k') :
    ∃ mode, k' = { k with mode := mode } := by
  unfold ext4ModeSet at h
  split at h
  · cases h
  split at h
  · cases h
  injection h with h
  exact ⟨_, h.symm⟩

theorem flink_ok {hardlink : Path} (h : ext4Flink k path hardlink fault = .ok k') :
    ∃ i d n, k.resolve path = some i ∧ k.directory i = false ∧ k.parent hardlink = some (d, n) ∧
      find exact k.entries d n = none ∧ k' = k.link d n i := by
  unfold ext4Flink at h
  split at h
  · cases h
  split at h
  · cases h
  rename_i i hresolve
  split at h
  · cases h
  rename_i hdir
  split at h
  · cases h
  rename_i d n hparent
  split_ifs at h with hfind
  injection h with h
  rw [not_isSome_iff_eq_none] at hfind
  exact ⟨i, d, n, hresolve, Bool.eq_false_iff.mpr hdir, hparent, hfind, h.symm⟩

variable {fault : Option RemoveFault}

/-- Where `ext4_fremove` fails only the contents of the file may be gone. -/
theorem fremove_error {r : Errno} (h : ext4Fremove k path fault = (k', some r)) :
    ∃ file, k' = { k with file := file } := by
  unfold ext4Fremove at h
  split at h
  · cases h
  split at h
  · injection h with h
    exact ⟨k.file, h.symm⟩
  split at h
  · cases h
  split at h
  · injection h with h
    split_ifs at h
    · exact ⟨_, h.symm⟩
    · exact ⟨k.file, h.symm⟩
  · cases h

/-- Otherwise it has removed the entry of the path, if this is no directory. -/
theorem fremove_none (h : ext4Fremove k path fault = (k', none)) :
    k' = k ∨ ∃ d e, k.locate path = some (d, e) ∧ k.directory e.target = false ∧ k' = k.unlink d e := by
  unfold ext4Fremove at h
  split at h
  · injection h with h
    exact .inl h.symm
  split at h
  · cases h
  rename_i d e hlocate
  split at h
  · injection h with h
    exact .inl h.symm
  rename_i hdir
  split at h
  · cases h
  injection h with h
  exact .inr ⟨d, e, hlocate, Bool.eq_false_iff.mpr hdir, h.symm⟩

/-- A path to a file has an entry, and `ext4_fremove` removes it. -/
theorem fremove_file (hk : TreeOk k) (h : ext4Fremove k path fault = (k', none))
    (hpath : k.resolve path = some x) (hfile : k.directory x = false) (hne : path ≠ []) :
    ∃ d e, k.locate path = some (d, e) ∧ e.target = x ∧ k' = k.unlink d e := by
  obtain ⟨d, e, hlocate, rfl⟩ := locate_of_resolve hk.plain hpath hne
  refine ⟨d, e, hlocate, rfl, ?_⟩
  unfold ext4Fremove at h
  rw [if_neg hne, hlocate] at h
  simp only at h
  rw [if_neg (Bool.eq_false_iff.mp hfile)] at h
  cases fault with
  | some => cases h
  | none =>
    injection h with h
    exact h.symm

theorem unlink_entries : (k.unlink d e).entries = remove k.entries d e := by
  unfold Disk.unlink
  split_ifs <;> rfl

theorem unlink_kind : (k.unlink d e).kind = k.kind := by
  unfold Disk.unlink
  split_ifs <;> rfl

variable {t : Ino → List (Entry Name Ino)}

theorem keyed_add (h : ∀ d, Keyed Entry.name (t d)) (hfree : find exact t d e.name = none) (c : Ino) :
    Keyed Entry.name (add t d e c) := by
  by_cases hc : c = d
  · rw [hc, add_self]
    refine .perm (keyed_cons.mpr ⟨fun a ha hname => ?_, h d⟩) (perm_append_singleton e (t d))
    have hfalse := find_none hfree ha
    rw [hname] at hfalse
    exact absurd (exact_iff.mpr rfl) (Bool.eq_false_iff.mp hfalse)
  · rw [add_of_ne hc]
    exact h c

/-- Where there must not be entries there are none still. -/
theorem nil_add {p : Ino → Bool} (h : ∀ d, p d = false → t d = []) (hd : p d = true) (c : Ino)
    (hc : p c = false) : add t d e c = [] := by
  rw [add_of_ne fun hcd => by rw [hcd, hd] at hc; cases hc]
  exact h c hc

theorem TreeOk.link (hk : TreeOk k) (hdir : k.directory d = true) (hfree : find exact k.entries d n = none)
    (i : Ino) : TreeOk (k.link d n i) :=
  ⟨keyed_add hk.names hfree, nil_add hk.plain hdir⟩

/-- What has no entries is not on the way of a path that leads elsewhere. -/
theorem not_visited {y : Ino} (h : k.resolve path = some x) (hentries : k.entries y = []) (hne : y ≠ x) :
    y ∉ visits exact k.entries root path := fun hy => visits_entries h hy hne hentries

end Caffeinix.Ext4
