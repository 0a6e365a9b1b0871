import Caffeinix.Mm.Run

/-!
# `Mm.Coherence` — what reading and mapping a file returns

`Coherent bytes s` says that in the state `s` the files have the bytes `bytes`, however one looks: by `read`,
through a shared mapping there is, through a page that a fault maps, in the page cache, and in the file where
nothing is cached. The bytes in question are those that stores, writes and changes of size have made
(`record Machine.step Machine.effect`).

Without a condition neither of the two main results holds. `page_cache_reclaim_unmapped`, which `munmap` calls,
releases pages that were stored to after they had been written back (`munmap_loses_store`); `fallocate` makes a
file longer over what a mapping has stored behind its end (`fallocate_shows_tail`).
-/

namespace Caffeinix.Mm

open Vma Runs
open Machine (step)

variable {Proc : Type} [Fintype Proc] [DecidableEq Proc] {s : Machine Proc} {bytes : Nat → Nat → UInt8}

/-- The files have these bytes. -/
structure Coherent (bytes : Nat → Nat → UInt8) (s : Machine Proc) : Prop where
  read : ∀ (file : VfsFile) (count offset : Nat), s.canRead file = true →
    (vfsFilePread s file count offset).2 =
      .ok ((List.range (min count ((s.files file.inode).size - offset))).map fun i =>
        bytes file.inode (offset + i))
  /-- through a shared mapping -/
  mapped : ∀ pte ∈ s.ptes, ∀ inode offset, kinds s.vmas pte.proc pte.va = some (.sharedFile inode offset) →
    ∀ i < pgsize, offset + i < (s.files inode).size → s.data pte.page i = bytes inode (offset + i)
  /-- through a page that a fault maps, in a shared or in a private mapping -/
  fault : ∀ (supply : List (Option Page)) (outcomes : List Bool) (proc : Proc) (address : Nat)
    (access : FaultAccess) (area : VmArea) (file : VfsFile),
    vmaFind address (s.vmas.sets proc) = some area → area.file = some file →
    s.findPte proc (pgrounddown address) = none →
    let r := mmapHandleFault { s with supply := supply, outcomes := outcomes } proc address access
    r.2 = .ok → ∃ pte ∈ r.1.ptes, pte.key = (proc, pgrounddown address) ∧ ∀ i < pgsize,
      (area.usage = .elf → pgrounddown address - area.start + i < area.fileLength) →
      area.offset + pgrounddown address - area.start + i < (r.1.files file.inode).size →
      r.1.data pte.page i = bytes file.inode (area.offset + pgrounddown address - area.start + i)
  cached : ∀ entry ∈ s.cache, ∀ i < pgsize, entry.offset + i < (s.files entry.inode).size →
    s.data entry.page i = bytes entry.inode (entry.offset + i)
  /-- a page is not in the cache only if the file has its bytes -/
  uncached : ∀ inode x, x < (s.files inode).size → (∀ entry ∈ s.cache, entry.key ≠ (inode, pgrounddown x)) →
    (s.files inode).data x = bytes inode x

omit [DecidableEq Proc] in
/-- **`read` after write-back.** -/
theorem MemInv.read_bytes (h : MemInv bytes True s) {file : VfsFile} (hread : s.canRead file = true)
    (count offset : Nat) : (vfsFilePread s file count offset).2 =
      .ok ((List.range (min count ((s.files file.inode).size - offset))).map fun i =>
        bytes file.inode (offset + i)) := by
  obtain ⟨hok, hinv, hframe, hsync⟩ := h.inv.pageCacheWritebackInode file.inode
  unfold vfsFilePread
  simp only [hread, hok, Bool.not_true, Bool.false_eq_true, if_false, hframe.size]
  congr 1
  refine List.map_congr_left fun i hi => ?_
  have hi := List.mem_range.mp hi
  exact hinv.file_bytes trivial (hsync trivial) (by rw [hframe.size]; omega)

/-- **The invariant is about what one sees.** -/
theorem MemInv.coherent (h : MemInv bytes True s) : Coherent bytes s where
  read := fun file count offset hread => h.read_bytes hread count offset
  mapped := fun pte hp inode offset hk i hi hx => by
    obtain ⟨entry, he, hkey, hpage⟩ := (h.inv.mapped pte hp).sharedFile inode offset hk
    obtain ⟨rfl, rfl⟩ := Prod.mk_inj.mp hkey
    rw [← hpage]
    exact h.inv.cached trivial entry he i hi hx
  fault := by
    intro supply outcomes proc address access area file hfind hfile hnone r hok
    have hmeet := h.meet ⟨.kernelAlloc, supply, outcomes⟩
    obtain ⟨pte, hp, hkey, hdata⟩ := hmeet.inv.mmapHandleFault_new hmeet.world MemInv.knows hfind hnone hok
    exact ⟨pte, hp, hkey, hdata trivial file hfile⟩
  cached := h.inv.cached trivial
  uncached := h.inv.uncached trivial

/-! ## Stores -/

/-- The calls that change the bytes or the size of a file. -/
def Action.resizes : Action Proc → Bool
  | .write .. | .writev .. | .truncate .. | .fallocate .. => true
  | _ => false

omit [Fintype Proc] [DecidableEq Proc] in
theorem zeroed_of_not_resizes {action : Action Proc} (h : action.resizes = false) : Zeroed s action := by
  cases action with
  | write | writev | truncate | fallocate => exact absurd h (by simp [Action.resizes])
  | _ => trivial

/-- A file of ten zeros. -/
def tenZeros : File := ⟨10, fun _ => 0⟩

/-- One process and files of ten zeros. -/
def tenZerosBoot : Machine Unit := .boot (fun _ => tenZeros) (fun _ => true) (fun _ => true) fun _ => 0

/-- The process maps the first page of a file, shared and writable, and takes the fault of the first store. -/
def mapShared : List (Step Unit) :=
  [⟨.spawn (), [some 1, some 2, some 3, some 4, some 5], []⟩,
    ⟨.mmap () ⟨0x10000000, 4096, 3, 1, some ⟨0, 0⟩, 0, 0, none, none, ⟨true, true⟩, ⟨true, true⟩⟩, [], []⟩,
    ⟨.fault () 0x10000000 .write, [some 6, some 7, some 8], [true, true, true]⟩]

/-- **The cache follows changes of size**, in any run where files become longer only over a clean end and writes
    leave no bytes that they do not count: every cached page and every mapping has what `read` returns, and what a
    file has grown by and nobody has written is zero. -/
theorem size_changes_coherent (files : Nat → File) (canRead canWrite : VfsFile → Bool) (superblock : Nat → Nat)
    (steps : List (Step Proc))
    (h : Along step (fun s step => Kept (s.meet step) step.action ∧ Zeroed (s.meet step) step.action)
      (.boot files canRead canWrite superblock) steps) :
    Coherent (record step Machine.effect (.boot files canRead canWrite superblock)
        (fun inode => (files inode).data) steps)
      ((.boot files canRead canWrite superblock : Machine Proc).run steps) :=
  (MemInv.run_coherent files canRead canWrite superblock h).coherent

/-- **A store behind the end of the file, then `fallocate`**: the stored byte becomes part of the file. -/
theorem fallocate_shows_tail :
    let steps := mapShared ++ [⟨.store () 0x10000020 65, [], []⟩, ⟨.fallocate ⟨0, 0⟩ 0 100, [], [true, true]⟩]
    (vfsFilePread (tenZerosBoot.run steps) ⟨0, 0⟩ 1 0x20).2 = .ok [65] ∧
    record step Machine.effect tenZerosBoot (fun _ => tenZeros.data) steps 0 0x20 = 0 := by
  decide +kernel

/-- The same store, then `truncate`, which clears what it adds, and a write that leaves a hole. -/
theorem truncate_clears_tail :
    let steps := mapShared ++ [⟨.store () 0x10000020 65, [], []⟩, ⟨.truncate 0 100, [], [true]⟩,
      ⟨.write ⟨0, 0⟩ false [66] 200 1 none false, [], [true]⟩]
    Coherent (record step Machine.effect tenZerosBoot (fun _ => tenZeros.data) steps)
      (tenZerosBoot.run steps) := by
  refine size_changes_coherent _ _ _ _ _ ⟨⟨trivial, trivial⟩, ⟨fun h => ?_, trivial⟩, ⟨trivial, trivial⟩,
    ⟨trivial, trivial⟩, ⟨trivial, trivial⟩, ⟨trivial, .inl rfl, fun h => ?_⟩, trivial⟩
  · exact absurd h (by decide)
  · exact absurd h (by decide)

end Caffeinix.Mm
