import Caffeinix.Fs.Error
import Caffeinix.Riscv

/-!
# `Ext4.File` — files of lwext4 (`fs/lwext4/src/ext4.c`)

An `ext4_file` is a cursor and the size that was seen last; `ext4_fseek`, `ext4_fread` and `ext4_fwrite` work on
it. A file is a size and the bytes its blocks hold, which may be there also behind the end; a file may have
holes. What is not in the model is given with each transfer: how far the device and the free space let it come,
what a read finds in the place of a hole (`ext4_fread` takes block 0 of the device for the missing block), and
what is in the blocks that a write allocates, which lwext4 does not clear.
-/

namespace Caffeinix.Ext4

open List

/-- The errors of `ext4_errno.h`. -/
inductive Errno where
  | perm | acces | rofs | noent | io | exist | notdir | isdir | inval | nospc | notempty | nodev | nxio | mlink
  | nomem | notsup | range | other
deriving DecidableEq

/-- `ext4fs_result` of an error. -/
def ext4fsResult : Errno → VfsError
  | .perm | .acces | .rofs => .perm
  | .noent => .noent
  | .io => .io
  | .exist => .exist
  | .notdir => .notdir
  | .isdir => .isdir
  | .inval => .inval
  | .nospc => .nospc
  | .notempty => .notempty
  | .nodev | .nxio => .nodev
  | .mlink => .mlink
  | .nomem => .nomem
  | .notsup => .notsupp
  | .range => .nametoolong
  | .other => .io

/-- A regular file on the disk. -/
structure Inode where
  size : Nat
  /-- the bytes of its blocks, `none` in a hole -/
  bytes : Nat → Option UInt8

/-- The byte of the file; a hole stands for zeros. -/
def Inode.byte (inode : Inode) (x : Nat) : UInt8 := (inode.bytes x).getD 0

/-- `ext4_file`. -/
structure Handle where
  fpos : Nat
  fsize : Nat
  /-- `flags & O_WRONLY` -/
  wronly : Bool

/-- A file and one `ext4_file` of it. -/
structure Opened where
  inode : Inode
  handle : Handle

/-- `ext4_fopen2` and `ext4_fopen_by_number`, of a file that is there. -/
def ext4Fopen (inode : Inode) (wronly : Bool) : Handle := ⟨0, inode.size, wronly⟩

/-- `ext4_fseek` with `SEEK_SET`; the offset is read as an `int64`. -/
def ext4Fseek (f : Opened) (offset : Nat) : Except Errno Opened :=
  if offset < 2 ^ 63 then .ok { f with handle := { f.handle with fpos := offset } } else .error .inval

/-! ## Reading -/

/-- How `ext4_fread` ends: the inode is not found, the device fails after some bytes, or it does not. -/
inductive ReadEnd where
  | lost (e : Errno)
  | broken (n : Nat) (e : Errno)
  | done
deriving DecidableEq

structure ReadIo where
  stop : ReadEnd
  hole : Nat → UInt8

/-- `fsize - fpos`, in `uint64`. -/
def Opened.left (f : Opened) : Nat :=
  if f.handle.fpos ≤ f.inode.size then f.inode.size - f.handle.fpos
  else 2 ^ 64 + f.inode.size - f.handle.fpos

/-- `ext4_fread` of at least one byte. -/
def ext4Fread (f : Opened) (size : Nat) (io : ReadIo) : Opened × Except Errno (List UInt8) :=
  let n := min size f.left
  if f.handle.wronly then (f, .error .perm)
  else
    match io.stop with
    | .lost e => (f, .error e)
    | .broken m e =>
      ({ f with handle := { f.handle with fpos := f.handle.fpos + min m n, fsize := f.inode.size } }, .error e)
    | .done =>
      ({ f with handle := { f.handle with fpos := f.handle.fpos + n, fsize := f.inode.size } },
        .ok ((range n).map fun i =>
          (f.inode.bytes (f.handle.fpos + i)).getD (io.hole (f.handle.fpos + i))))

/-! ## Writing -/

/-- How `ext4_fwrite` ends. Without free space for another block it has stored what there was room for
    (`out_fsize`). If the device fails it goes to `Finish`: the size does not follow the bytes stored, but
    `ext4_fs_append_inode_dblk` may have made it larger by the blocks it has appended. -/
inductive WriteEnd where
  | lost (e : Errno)
  | broken (n grown : Nat)
  | nospace (n : Nat)
  | done
deriving DecidableEq

/-- `put` is the outcome of `ext4_fs_put_inode_ref`, which is what is returned: an error before is forgotten. -/
structure WriteIo where
  stop : WriteEnd
  put : Option Errno
  fresh : Nat → Option UInt8

/-- How many of `count` bytes are stored. -/
def WriteEnd.stored (count : Nat) : WriteEnd → Nat
  | .lost _ => 0
  | .broken n _ => min n count
  | .nospace n => min n count
  | .done => count

/-- The bytes are in the blocks from `position` on; blocks that were not there come with what is in them. -/
def Inode.store (inode : Inode) (position : Nat) (bytes : List UInt8) (n : Nat) (fresh : Nat → Option UInt8) :
    Nat → Option UInt8 :=
  fun x =>
    if position ≤ x ∧ x < position + n then some (bytes.getD (x - position) 0)
    else
      match inode.bytes x with
      | some b => some b
      | none => fresh x

/-- `ext4_fwrite` of at least one byte. -/
def ext4Fwrite (f : Opened) (bytes : List UInt8) (io : WriteIo) : Opened × Except Errno Nat :=
  let n := io.stop.stored bytes.length
  let fpos := f.handle.fpos + n
  let stored := f.inode.store f.handle.fpos bytes n io.fresh
  let result : Except Errno Nat :=
    match io.put with
    | some e => .error e
    | none => .ok n
  match io.stop with
  | .lost e => (f, .error e)
  | .broken _ grown =>
    (⟨⟨f.inode.size + grown, stored⟩, { f.handle with fpos := fpos, fsize := f.inode.size }⟩, result)
  | _ =>
    (⟨⟨max f.inode.size fpos, stored⟩, { f.handle with fpos := fpos, fsize := max f.inode.size fpos }⟩, result)

/-! ## What they do -/

variable {f f' : Opened} {size : Nat}

theorem ext4Fseek_ok {offset : Nat} (h : ext4Fseek f offset = .ok f') :
    f' = { f with handle := { f.handle with fpos := offset } } := by
  unfold ext4Fseek at h
  split_ifs at h
  exact (Except.ok.inj h).symm

/-- What a read delivers. -/
theorem ext4Fread_ok {io : ReadIo} {bytes : List UInt8} (h : (ext4Fread f size io).2 = .ok bytes) :
    bytes = (range (min size f.left)).map fun i =>
      (f.inode.bytes (f.handle.fpos + i)).getD (io.hole (f.handle.fpos + i)) := by
  unfold ext4Fread at h
  simp only at h
  split at h
  · cases h
  split at h <;> cases h
  rfl

theorem ext4Fread_inode (f : Opened) (io : ReadIo) : (ext4Fread f size io).1.inode = f.inode := by
  unfold ext4Fread
  split_ifs
  · rfl
  · cases io.stop <;> rfl

/-- The device has not failed in the middle of the write. -/
def WriteIo.Whole (io : WriteIo) : Prop := ∀ n grown, io.stop ≠ .broken n grown

/-- A write has no effect, or it has stored some of the bytes and the size follows. -/
theorem ext4Fwrite_whole (f : Opened) (bytes : List UInt8) {io : WriteIo} (hio : io.Whole)
    (hlost : ∀ e, io.stop ≠ .lost e) :
    (ext4Fwrite f bytes io).1.inode =
      ⟨max f.inode.size (f.handle.fpos + io.stop.stored bytes.length),
        f.inode.store f.handle.fpos bytes (io.stop.stored bytes.length) io.fresh⟩ ∧
    (ext4Fwrite f bytes io).2 = match io.put with
      | some e => .error e
      | none => .ok (io.stop.stored bytes.length) := by
  unfold ext4Fwrite
  cases hstop : io.stop with
  | lost e => exact absurd hstop (hlost e)
  | broken n grown => exact absurd hstop (hio n grown)
  | nospace | done => exact ⟨rfl, rfl⟩

end Caffeinix.Ext4
