import Caffeinix.Mm.Machine
import Mathlib.Data.List.Sort

/-!
# `Mm.PageTable` — user page tables (`arch/riscv/vm.c`, `process_pagedir`)

A page table is modelled by its leaves and by the pages its tables occupy. The leaves of all address spaces
stand in one list, so that the references they hold can be counted; loops over a range of addresses run over
the leaves in it. The kernel's own leaves (the trampoline, the trapframes, and the signal trampoline at
`USER_SIGRETURN`) are not in the list.
-/

namespace Caffeinix.Mm

open Vma

variable {Proc : Type} [DecidableEq Proc]

/-- `LINUX_MAP_SHARED`, `LINUX_PROT_READ`. -/
def linuxMapShared : Nat := 1

@[inherit_doc linuxMapShared] def linuxProtRead : Nat := 1

/-- `USER_STACK_TOP`, which is `USER_SIGRETURN`. -/
def userStackTop : Nat := 0x40000000

/-- `TRAMPOLINE`. -/
def trampoline : Nat := maxva - pgsize

/-- `TRAPFRAME(x)`. -/
def trapframe (x : Nat) : Nat := trampoline - pgsize * (x + 1)

/-- `(area->flags & 0xf) == LINUX_MAP_PRIVATE`. -/
def areaPrivate (area : VmArea) : Bool := area.flags &&& 0xf == linuxMapPrivate

/-- `(area->flags & 0xf) == LINUX_MAP_SHARED`. -/
def areaShared (area : VmArea) : Bool := area.flags &&& 0xf == linuxMapShared

/-! ## Leaves -/

variable (s : Machine Proc)

variable (proc : Proc)

/-- `PTE(pgdir, va, 0)`, when it is valid. -/
def Machine.findPte (va : Nat) : Option (Pte Proc) :=
  s.ptes.find? fun pte => pte.proc = proc ∧ pte.va = va

/-- `*pte = ...`, for a leaf that stays valid. -/
def Machine.setPte (old new : Pte Proc) : Machine Proc :=
  { s with ptes := new :: s.ptes.erase old }

/-- `*pte = 0`. -/
def Machine.clearPte (pte : Pte Proc) : Machine Proc :=
  { s with ptes := s.ptes.erase pte }

/-- A leaf goes and its page is put. -/
def unmapPte (pte : Pte Proc) : Machine Proc := pfree (s.clearPte pte) pte.page

/-! ## Tables -/

def Machine.hasTable (level index : Nat) : Bool :=
  s.tables.any fun table => table.proc = proc ∧ table.level = level ∧ table.index = index

/-- One level of `vm_walk` with `allocate`: the table is there, or is allocated. -/
def ensureTable (level index : Nat) : Machine Proc × Bool :=
  if s.hasTable proc level index then (s, true)
  else
    match (pallocZero s).2 with
    | none => ((pallocZero s).1, false)
    | some page =>
      ({ (pallocZero s).1 with
        tables := ⟨proc, level, index, page⟩ :: (pallocZero s).1.tables }, true)

/-- `vm_walk(pgdir, va, 1, 0, 0)`: whether there is a leaf to write. A table allocated for a walk that fails
    further down stays. -/
def vmWalk (va : Nat) : Machine Proc × Bool :=
  if va ≥ maxva || !s.hasTable proc 2 0 then (s, false)
  else
    let r := ensureTable s proc 1 (va / 2 ^ 30)
    if r.2 then ensureTable r.1 proc 0 (va / 2 ^ 21) else r

/-- `vm_map` of one page. -/
def vmMap (va : Nat) (page : Page) (perm : Perm) (d : Bool) : Machine Proc × Bool :=
  let r := vmWalk s proc va
  if !r.2 then r
  else if (r.1.findPte proc va).isSome then ({ r.1 with panic := some .vmMapRemap }, true)
  else ({ r.1 with ptes := ⟨proc, va, page, perm, d⟩ :: r.1.ptes }, true)

/-- `pagedir_free`. -/
def pagedirFree : Machine Proc :=
  (s.tables.filter fun table => table.proc = proc).foldl
    (fun s table => pfree { s with tables := s.tables.erase table } table.page) s

/-- `process_pagedir`, for the first thread of a process. -/
def processPagedir : Machine Proc × Bool :=
  match (pallocZero s).2 with
  | none => ((pallocZero s).1, false)
  | some page =>
    let s : Machine Proc :=
      { (pallocZero s).1 with tables := ⟨proc, 2, 0, page⟩ :: (pallocZero s).1.tables }
    let r := vmWalk s proc trampoline
    if !r.2 then (pagedirFree r.1 proc, false)
    else
      let r := vmWalk r.1 proc userStackTop
      if !r.2 then (pagedirFree r.1 proc, false)
      else
        let r := vmWalk r.1 proc (trapframe 0)
        if !r.2 then (pagedirFree r.1 proc, false)
        else ({ r.1 with sigreturn := Function.update r.1.sigreturn proc true }, true)

/-! ## Ranges -/

/-- The leaves of an address space in `[start, finish)`. -/
def Machine.ptesIn (start finish : Nat) : List (Pte Proc) :=
  s.ptes.filter fun pte => pte.proc = proc ∧ start ≤ pte.va ∧ pte.va < finish

/-- `vm_unmap_range`. -/
def vmUnmapRange (va size : Nat) : Machine Proc :=
  if size = 0 then s
  else (s.ptesIn proc (pgrounddown va) (pgroundup (va + size))).foldl unmapPte s

/-- What `vm_protect_user_range` makes of one leaf: write permission is given to a page of a private area
    only if nobody else refers to it, and to a page of a shared file only if it was there before. -/
def vmProtectPte (permissions : Perm) (area : VmArea) (pte : Pte Proc) : Pte Proc :=
  { pte with
    perm :=
      if permissions.w then
        if areaPrivate area && pallocRefcount s pte.page > 1 then
          { permissions with w := false, cow := true }
        else if area.origin = .fileBacked && areaShared area && !pte.perm.w then
          { permissions with w := false, cow := false }
        else { permissions with cow := false }
      else { permissions with cow := pte.perm.cow && areaPrivate area } }

/-- `vm_protect_user_range`. Its caller panics when it fails. -/
def vmProtectUserRange (start finish : Nat) (permissions : Perm) : Machine Proc × Bool :=
  if start ≥ finish || start % pgsize ≠ 0 || finish % pgsize ≠ 0 || finish > maxva ||
      !(permissions.r || permissions.w || permissions.x) || (permissions.w && !permissions.r) then (s, false)
  else if (s.ptesIn proc start finish).any fun pte => (vmaFind pte.va (s.vmas.sets proc)).isNone then
    (s, false)
  else
    ({ s with
      ptes := s.ptes.map fun pte =>
        if pte.proc = proc ∧ start ≤ pte.va ∧ pte.va < finish then
          match vmaFind pte.va (s.vmas.sets proc) with
          | some area => vmProtectPte s permissions area pte
          | none => pte
        else pte }, true)

/-! ## Copy on write -/

/-- `vm_resolve_cow`: 1 if the leaf is writable now, 0 if the fault is not for it, -1 without memory. -/
def vmResolveCow (va : Nat) : Machine Proc × Int :=
  match s.findPte proc (pgrounddown va) with
  | none => (s, 0)
  | some pte =>
    -- another thread may have resolved this write fault first
    if !pte.perm.cow then (s, if pte.perm.w then 1 else 0)
    else if pallocRefcount s pte.page = 0 then (s, -1)
    else if pallocRefcount s pte.page = 1 then
      (s.setPte pte { pte with perm := { pte.perm with w := true, cow := false } }, 1)
    else
      match (allocPages s false).2 with
      | none => ((allocPages s false).1, -1)
      | some page =>
        let s := (allocPages s false).1.setData page ((allocPages s false).1.data pte.page)
        (pfree
          (s.setPte pte { pte with page := page, perm := { pte.perm with w := true, cow := false } })
          pte.page, 1)

/-- One leaf of `vm_copy_walk`. -/
def vmCopyPte (old new : Proc) (va : Nat) : Machine Proc × Bool :=
  match s.findPte old va with
  | none => (s, true)
  | some pte =>
    match vmaFind va (s.vmas.sets old) with
    | none => (s, false)
    | some area =>
      let r := pallocGet s pte.page
      if !r.2 then (r.1, false)
      else
        let perm : Perm :=
          if areaPrivate area && pte.perm.w then { pte.perm with w := false, cow := true } else pte.perm
        let s :=
          if areaPrivate area && pte.perm.w then r.1.setPte pte { pte with perm := perm } else r.1
        let m := vmMap s new va pte.page perm pte.d
        if m.2 then (m.1, true) else (pfree m.1 pte.page, false)

/-- `vm_copy_walk` over the given addresses. -/
def vmCopyWalk (s : Machine Proc) (old new : Proc) : List Nat → Machine Proc × Bool
  | [] => (s, true)
  | va :: rest =>
    let r := vmCopyPte s old new va
    if r.2 then vmCopyWalk r.1 old new rest else r

/-- `vm_free_user`. The leaf at `USER_SIGRETURN` has `PTE_U`, so the walk puts its page too, if it is still
    mapped; that page is kernel text, and it is met last, above all user areas. -/
def vmFreeUser : Machine Proc :=
  let s := (s.ptes.filter fun pte => pte.proc = proc).foldl unmapPte s
  if s.sigreturn proc then { s with panic := some .putSigtrampoline } else s

/-- The addresses of the leaves of an address space, in the order of the walk. -/
def Machine.leafAddresses : List Nat :=
  ((s.ptes.filter fun pte => pte.proc = proc).map Pte.va).insertionSort (· ≤ ·)

/-- `vm_copy`. -/
def vmCopy (old new : Proc) : Machine Proc × Bool :=
  let r := vmCopyWalk s old new (s.leafAddresses old)
  if r.2 then r else (vmFreeUser r.1 new, false)

/-- `vm_unmap(pgdir, USER_SIGRETURN, 1, 0)`, if it is mapped. -/
def unmapSigreturn : Machine Proc :=
  { s with sigreturn := Function.update s.sigreturn proc false }

/-- `process_freepagedir`. -/
def processFreepagedir : Machine Proc :=
  pagedirFree (vmFreeUser (unmapSigreturn s proc) proc) proc

end Caffeinix.Mm
