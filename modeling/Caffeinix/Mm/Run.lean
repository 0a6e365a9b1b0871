import Caffeinix.Lib.Runs
import Caffeinix.Mm.Truncate

/-!
# `Mm.Run` — the invariant over whole runs

Every action keeps the invariant (`MemInv.perform`), and so does every run from a machine with nothing mapped
(`MemInv.run`). What is claimed about the bytes of files follows the stores and the calls that change files
(`effect`). The theorems about bytes, `shared_stores_kept` and `size_changes_coherent`, need two conditions, on
`munmap` and fixed `mmap` (`Kept`) and on calls that write to a file or make it longer (`Zeroed`). The theorems
about references and private pages, `page_references` and `private_writable_alone`, need none.
-/

namespace Caffeinix.Mm

open Option Vma Runs Function

variable {Proc : Type} [Fintype Proc] [DecidableEq Proc] {s : Machine Proc} {bytes : Nat → Nat → UInt8}
  {coherent : Prop}

/-! ## Conditions and effects -/

/-- The pages that `munmap` and `mmap` with `MAP_FIXED` release, if they get that far, are in their files. -/
def Kept (s : Machine Proc) : Action Proc → Prop
  | .munmap proc address length outcome => ∀ rounded, mmapRoundLength length = some rounded →
      UnmappedSynced (munmapped s proc address rounded outcome)
  | .mmap proc a => a.flags &&& linuxMapFixed ≠ 0 → ∀ rounded, mmapRoundLength a.length = some rounded →
      UnmappedSynced (munmapped s proc a.address rounded a.unmap)
  | _ => True

/-- When a file becomes longer by `fallocate`, or by a write that stores nothing, the last cached page has
    nothing behind the old end; and a write leaves no bytes that it does not count. -/
def Zeroed (s : Machine Proc) : Action Proc → Prop
  | .write file append content position room copied _ => Uncopied copied content.length room ∧
      (min content.length room = 0 →
        TailZero s file.inode (s.files file.inode).size (writePosition s file append position))
  | .writev file append iovecs position room copied _ => Uncopied copied iovecs.flatten.length room ∧
      ∀ content ∈ iovecs.head?, min content.length room = 0 →
        TailZero s file.inode (s.files file.inode).size (writePosition s file append position)
  | .fallocate file offset length => TailZero s file.inode (s.files file.inode).size (offset + length)
  | _ => True

/-- The bytes of files after an action, given those before: a store through a shared mapping, the bytes a call
    has written by its own account, zeros where a file has become longer. -/
def effect (s : Machine Proc) (bytes : Nat → Nat → UInt8) : Action Proc → Nat → Nat → UInt8
  | .store proc va byte => stored s proc va byte bytes
  | .write file append content position room copied current =>
    let r := vfsFilePwrite s file append content position room copied current
    update bytes file.inode (rewritten (bytes file.inode) (s.files file.inode).size
      (r.1.files file.inode).size (writePosition s file append position) (content.take r.2.toNat))
  | .writev file append iovecs position room copied current =>
    let r := vfsWritev s file append iovecs position room copied current
    update bytes file.inode (rewritten (bytes file.inode) (s.files file.inode).size
      (r.1.files file.inode).size (writePosition s file append position) (iovecs.flatten.take r.2.toNat))
  | .truncate inode size =>
    update bytes inode (rewritten (bytes inode) (s.files inode).size
      ((perform s (.truncate inode size)).files inode).size 0 [])
  | .fallocate file offset length =>
    update bytes file.inode (rewritten (bytes file.inode) (s.files file.inode).size
      ((vfsFallocate s file offset length).1.files file.inode).size 0 [])
  | _ => bytes

/-! ## One step -/

section
variable (h : MemInv bytes coherent s)
include h

theorem MemInv.truncate (inode size : Nat) :
    MemInv (effect s bytes (.truncate inode size)) coherent (perform s (.truncate inode size)) := by
  unfold effect perform
  cases hrun : vfsTruncateInode s inode size with
  | none =>
    simp only [hrun, map_none, getD_none]
    rw [rewritten_nothing le_rfl, update_eq_self]
    exact h
  | some =>
    obtain ⟨h1, h2⟩ := h.inv.vfsTruncateInode hrun
    simp only [hrun, map_some, getD_some]
    exact h.keep h1 h2

omit [DecidableEq Proc] in
theorem MemInv.read (file : VfsFile) (count offset : Nat) :
    MemInv bytes coherent (vfsFilePread s file count offset).1 := by
  unfold vfsFilePread
  split
  · exact h
  · obtain ⟨_, h2, h3, _⟩ := h.inv.pageCacheWritebackInode file.inode
    simp only
    split <;> exact h.keep h2 h3.vmas

omit [DecidableEq Proc] in
/-- The two parts of a round of `page_cache_reclaim_mapped` that work on the selected entry. -/
theorem MemInv.selected {f : CacheEntry → Machine Proc} (inode offset : Nat)
    (hf : ∀ entry ∈ s.cache, MemInv bytes coherent (f entry)) :
    MemInv bytes coherent (match s.selected inode offset with
      | none => s
      | some entry => f entry) := by
  split
  · exact h
  · rename_i entry hsel
    obtain ⟨hfind, _⟩ := filter_eq_some_iff.mp hsel
    exact hf entry (h.inv.pageCacheFind_eq_some.mp hfind).1

/-- **Every action keeps the invariant.** -/
theorem MemInv.perform (action : Action Proc) (hkept : coherent → Kept s action)
    (hzeroed : coherent → Zeroed s action) : MemInv (effect s bytes action) coherent (perform s action) := by
  cases action with
  | spawn proc =>
    show MemInv bytes coherent (if s.blank proc then (processPagedir s proc).1 else s)
    split
    · exact h.spawn proc
    · exact h
  | fork old new outcome => exact h.processFork old new outcome
  | exit proc => exact h.processReleaseResources proc
  | reap proc => exact h.processFree proc
  | mmap proc args => exact h.sysLinuxMmap proc args hkept
  | munmap proc address length outcome => exact h.sysLinuxMunmap proc address length outcome hkept
  | mprotect proc address length protection startOutcome endOutcome =>
    exact h.sysLinuxMprotect proc address length protection startOutcome endOutcome
  | msync proc address length flags => exact h.sysLinuxMsync proc address length flags
  | brk proc brk brkStart mmapTop requested outcome =>
    exact h.sysLinuxBrk proc brk brkStart mmapTop requested outcome
  | segment proc outcome e => exact h.elfImageMap proc outcome e
  | fault proc address access =>
    obtain ⟨h1, h2⟩ := h.inv.mmapHandleFault h.world MemInv.knows proc address access
    exact h.keep h1 h2
  | store proc va byte => exact h.userStore proc va byte
  | pin proc va write => exact h.userCopyPin proc va write
  | unpin page => exact h.userCopyUnpin page
  | reclaim target =>
    obtain ⟨h1, h2⟩ := h.inv.pageCacheReclaim target
    exact h.keep h1 h2.vmas
  | reclaimSelect =>
    obtain ⟨h1, h2⟩ := h.inv.pageCacheSelectCleanLocked
    exact h.keep h1 h2
  | reclaimUnmap inode offset =>
    exact h.selected inode offset fun entry _ => h.mmapReclaimFilePage inode offset entry.page
  | reclaimFinish inode offset blocked =>
    refine h.selected inode offset fun entry he => ?_
    obtain ⟨h1, h2⟩ := h.inv.pageCacheReclaimFinish he blocked
    exact h.keep h1 h2
  | reclaimAnonymous proc target => exact h.mmapReclaimAnonymous proc target
  | writebackInode inode =>
    obtain ⟨_, h2, h3, _⟩ := h.inv.pageCacheWritebackInode inode
    exact h.keep h2 h3.vmas
  | writebackSuper superblock =>
    obtain ⟨h1, h2⟩ := h.inv.pageCacheWritebackSuper superblock
    exact h.keep h1 h2
  | evictSuper superblock =>
    obtain ⟨h1, h2⟩ := h.inv.pageCacheEvictSuper superblock
    exact h.keep h1 h2
  | read file count offset => exact h.read file count offset
  | write file append content position room copied current =>
    obtain ⟨h1, h2, _⟩ := h.inv.vfsFilePwrite file append content position room copied current hzeroed
    exact h.keep h1 h2
  | writev file append iovecs position room copied current =>
    obtain ⟨h1, h2, _⟩ := h.inv.vfsWritev file append iovecs position room copied current hzeroed
    exact h.keep h1 h2
  | truncate inode size => exact h.truncate inode size
  | fallocate file offset length =>
    obtain ⟨h1, h2, _⟩ := h.inv.vfsFallocate file offset length hzeroed
    exact h.keep h1 h2
  | kernelAlloc => exact h.kernelAlloc
  | kernelFree page => exact h.kernelFree page

/-! ## Runs -/

omit [DecidableEq Proc] in
/-- What an action will meet does not matter. -/
theorem MemInv.meet (step : Step Proc) : MemInv bytes coherent (s.meet step) :=
  ⟨h.world, { h.inv with mapped := fun pte hp => { h.inv.mapped pte hp with } }⟩

/-- The bytes of files after a step. -/
def Machine.effect (s : Machine Proc) (bytes : Nat → Nat → UInt8) (step : Step Proc) : Nat → Nat → UInt8 :=
  if s.panic.isSome then bytes else Mm.effect (s.meet step) bytes step.action

/-- **Every step keeps the invariant.** -/
theorem MemInv.step (step : Step Proc) (hkept : coherent → Kept (s.meet step) step.action)
    (hzeroed : coherent → Zeroed (s.meet step) step.action) :
    MemInv (s.effect bytes step) coherent (s.step step) := by
  unfold Machine.effect Machine.step
  split
  · exact h
  · exact (h.meet step).perform step.action hkept hzeroed

end

variable (files : Nat → File) (canRead canWrite : VfsFile → Bool) (superblock : Nat → Nat)

/-- A machine with nothing mapped. -/
theorem MemInv.boot : MemInv (fun inode => (files inode).data) coherent
      (.boot files canRead canWrite superblock : Machine Proc) where
  world := ⟨⟨_, worldInv_run (fun _ => 0) []⟩, fun _ _ _ v hv => absurd hv (some_ne_none v).symm⟩
  inv :=
    { counted := fun page => rfl
      live := fun page => by simp [Machine.boot]
      bound := fun page => Nat.zero_le _
      calm := .inl rfl
      pteKeys := .nil
      mapped := fun pte hp => absurd hp List.not_mem_nil
      cacheKeys := .nil
      cachePages := .nil
      entries := fun entry he => absurd he List.not_mem_nil
      anonApart := fun a ha => absurd ha List.not_mem_nil
      clean := fun _ entry he => absurd he List.not_mem_nil
      cached := fun _ entry he => absurd he List.not_mem_nil
      uncached := fun _ inode x hx _ => if_pos hx
      zeros := fun _ inode x hx => if_neg (Nat.not_lt.mpr hx) }

/-- **Every run keeps the invariant**, as far as it needs no condition. -/
theorem MemInv.run (steps : List (Step Proc)) :
    ∃ bytes, MemInv bytes False ((.boot files canRead canWrite superblock : Machine Proc).run steps) :=
  foldl_invariant (I := fun s => ∃ bytes, MemInv bytes False s)
    (fun _ step ⟨_, h⟩ => ⟨_, h.step step False.elim False.elim⟩)
    ⟨_, .boot files canRead canWrite superblock⟩ steps

/-- **Every run keeps the invariant** about bytes if its steps meet the conditions. -/
theorem MemInv.run_coherent {steps : List (Step Proc)}
    (h : Along Machine.step (fun s step => Kept (s.meet step) step.action ∧ Zeroed (s.meet step) step.action)
      (.boot files canRead canWrite superblock) steps) :
    MemInv (record Machine.step Machine.effect (.boot files canRead canWrite superblock : Machine Proc)
        (fun inode => (files inode).data) steps) True
      ((.boot files canRead canWrite superblock : Machine Proc).run steps) :=
  Along.invariant (I := fun bytes s => MemInv bytes True s)
    (fun _ _ step hinv hcond => hinv.step step (fun _ => hcond.1) fun _ => hcond.2)
    (.boot files canRead canWrite superblock) h

end Caffeinix.Mm
