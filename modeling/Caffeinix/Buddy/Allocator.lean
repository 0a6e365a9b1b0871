import Mathlib.Logic.Function.Basic
import Caffeinix.Riscv

/-!
# `Buddy.Allocator` — the page allocator of `kernel/buddy.c`

A region is a range of physical pages whose prefix `[start, allocatable_start)` is reserved. Its pages from
`allocatable_start` on are cut into blocks of `2 ^ order` pages; a free block is a node of the list of its
order, stored in the block itself, and one byte per page (in an array the caller supplies) says what the
page is the first page of.

* An intrusive list is the `List` of its blocks' addresses from `blocks.next` on. `list_insert_after` on
  the head is `cons`; `list_remove` unlinks the block from the list that holds it.
* The arrays behind the `states` pointers are one memory: `states i j` is byte `j` of region `i`'s array.
* A pointer to a region is its index; a pointer to a block is its address, and `0` is the null pointer.
-/

namespace Caffeinix.Buddy

open Function

/-- `BUDDY_MAX_ORDER`. -/
def buddyMaxOrder : Nat := 18

/-- `MEMRANGE_MAX`. -/
def memrangeMax : Nat := 64

/-- `BUDDY_STATE_FREE | order`, as stored in a `uint8`. -/
def buddyStateFree (order : Nat) : UInt8 := UInt8.ofNat (0x80 ||| order)

/-- `BUDDY_STATE_ALLOCATED | order`, as stored in a `uint8`. -/
def buddyStateAllocated (order : Nat) : UInt8 := UInt8.ofNat (0x40 ||| order)

/-- `BUDDY_STATE_UNUSED`. -/
def buddyStateUnused : UInt8 := 0xff

/-! ## State -/

/-- `struct buddy_area`. -/
structure BuddyArea where
  blocks : List Nat
  count : Nat

/-- `struct buddy_region`, without the `states` pointer. -/
structure BuddyRegion where
  start : Nat
  finish : Nat
  allocatableStart : Nat
  stateCount : Nat
  deriving DecidableEq

/-- `struct buddy_allocator`; `region_count` is the length of `regions`. -/
structure BuddyAllocator where
  areas : Nat → BuddyArea
  regions : List BuddyRegion
  states : Nat → Nat → UInt8
  freePages : Nat

/-- `PGSIZE << order`. -/
def buddyOrderSize (order : Nat) : Nat := pgsize <<< order

variable (al : BuddyAllocator)

/-- The first region that holds `address`. -/
def buddyFindRegion (address : Nat) : Option Nat :=
  al.regions.findIdx? fun r => decide (r.start ≤ address) && decide (address < r.finish)

/-- The index of `address`'s state byte, or null past the array's end. -/
def buddyState (r : BuddyRegion) (address : Nat) : Option Nat :=
  let index := (address - r.start) / pgsize
  if r.stateCount ≤ index then none else some index

/-- A block of `order` at `address` is aligned and lies in the allocatable part of the region. -/
def buddyBlockFits (r : BuddyRegion) (address order : Nat) : Bool :=
  if buddyMaxOrder < order || address < r.allocatableStart || address % pgsize ≠ 0 then false
  else
    let size := buddyOrderSize order
    decide (address % size = 0) && decide (address ≤ r.finish) && decide (size ≤ r.finish - address)

/-! ## Lists -/

/-- Store a state byte; nothing happens through the null pointer `buddy_state` can return. -/
def BuddyAllocator.setState (region : Nat) (index : Option Nat) (value : UInt8) : BuddyAllocator :=
  match index with
  | none => al
  | some j => { al with states := update al.states region
                          (update (al.states region) j value) }

/-- Put a block at the front of its order's list. -/
def BuddyAllocator.push (address order : Nat) : BuddyAllocator :=
  { al with areas := update al.areas order
              ⟨address :: (al.areas order).blocks, (al.areas order).count + 1⟩ }

/-- `buddy_list_add`. -/
def buddyListAdd (region : Nat) (r : BuddyRegion) (address order : Nat) : BuddyAllocator :=
  (al.push address order).setState region (buddyState r address) (buddyStateFree order)

/-- `buddy_list_remove`. -/
def buddyListRemove (address order : Nat) : BuddyAllocator :=
  { al with areas := update al.areas order
              ⟨(al.areas order).blocks.erase address, (al.areas order).count - 1⟩ }

/-- The loop of `buddy_largest_order`, from `order`, for at most `fuel` more iterations. -/
def buddyLargestOrderLoop (page pages : Nat) : Nat → Nat → Nat
  | 0, order => order
  | fuel + 1, order =>
    if order < buddyMaxOrder && (page &&& (1 <<< order)) == 0 && decide (1 <<< (order + 1) ≤ pages)
    then buddyLargestOrderLoop page pages fuel (order + 1)
    else order

/-- The largest order a block at `address` can have among `pages` remaining pages. -/
def buddyLargestOrder (address pages : Nat) : Nat :=
  buddyLargestOrderLoop (address / pgsize) pages buddyMaxOrder 0

/-! ## Regions -/

/-- `buddy_init`. -/
def buddyInit : BuddyAllocator where
  areas := fun _ => ⟨[], 0⟩
  regions := []
  states := fun _ _ => 0
  freePages := 0

/-- The loop of `buddy_add_region` that cuts `[address, end)` into free blocks. Every block takes at least
    one page, so the number of pages left is enough fuel. -/
def buddyCarve (region : Nat) (r : BuddyRegion) : Nat → BuddyAllocator → Nat → BuddyAllocator
  | 0, al, _ => al
  | fuel + 1, al, address =>
    if address < r.finish then
      let pages := (r.finish - address) / pgsize
      let order := buddyLargestOrder address pages
      let al := buddyListAdd al region r address order
      let al := { al with freePages := al.freePages + 1 <<< order }
      buddyCarve region r fuel al (address + buddyOrderSize order)
    else al

/-- The arguments of `buddy_add_region`. A free block's list node is stored in the block, so a region that
    hands the allocator page `0` makes `buddy_list_add` store through the null pointer; callers never do
    (`palloc_init` passes an `allocatable_start` past the kernel image). -/
structure RegionArgs where
  start : Nat
  finish : Nat
  allocatableStart : Nat
  /-- `states` is not the null pointer. -/
  hasStates : Bool
  stateCount : Nat
  allocatable_pos : 0 < allocatableStart

/-- The region the arguments describe. -/
def RegionArgs.region (a : RegionArgs) : BuddyRegion :=
  ⟨a.start, a.finish, a.allocatableStart, a.stateCount⟩

/-- `buddy_add_region`: `0` on success, `-1` when the region is refused. -/
def buddyAddRegion (a : RegionArgs) : BuddyAllocator × Int :=
  if !a.hasStates || a.finish ≤ a.start || a.start % pgsize ≠ 0 || a.finish % pgsize ≠ 0 ||
      a.allocatableStart < a.start || a.finish < a.allocatableStart ||
      a.allocatableStart % pgsize ≠ 0 || a.stateCount < (a.finish - a.start) / pgsize ||
      memrangeMax ≤ al.regions.length then (al, -1)
  else if al.regions.any fun r => decide (a.start < r.finish) && decide (r.start < a.finish) then (al, -1)
  else
    let region := al.regions.length
    let al := { al with
      regions := al.regions ++ [a.region]
      states := update al.states region fun _ => buddyStateUnused }
    (buddyCarve region a.region ((a.finish - a.allocatableStart) / pgsize) al a.allocatableStart, 0)

/-! ## Allocation -/

/-- The splitting loop of `buddy_alloc`: the upper half of each split goes back on its list. -/
def buddySplit (region : Nat) (r : BuddyRegion) (address order : Nat) :
    Nat → BuddyAllocator → BuddyAllocator
  | 0, al => al
  | current + 1, al =>
    if order < current + 1 then
      buddySplit region r address order current
        (buddyListAdd al region r (address + buddyOrderSize current) current)
    else al

/-- The smallest order from `order` on whose list is not empty. -/
def buddyFindArea (order : Nat) : Option Nat :=
  (List.range' order (buddyMaxOrder + 1 - order)).find? fun current => (al.areas current).count != 0

/-- `buddy_alloc`: the new allocator and the block's address, or the null pointer `0`. -/
def buddyAlloc (order : Nat) : BuddyAllocator × Nat :=
  if buddyMaxOrder < order then (al, 0)
  else
    match buddyFindArea al order with
    | none => (al, 0)
    | some current =>
      match (al.areas current).blocks with
      | [] => (al, 0)
      | address :: _ =>
        match buddyFindRegion al address with
        | none => (al, 0)
        | some region =>
          match al.regions[region]? with
          | none => (al, 0)
          | some r =>
            let state := buddyState r address
            let al := buddyListRemove al address current
            let al := al.setState region state buddyStateUnused
            let al := buddySplit region r address order current al
            let al := al.setState region state (buddyStateAllocated order)
            ({ al with freePages := al.freePages - 1 <<< order }, address)

/-! ## Freeing -/

/-- `buddy_allocated`: an allocated block of exactly this order starts at `address`. -/
def buddyAllocated (address order : Nat) : Bool :=
  if buddyMaxOrder < order || address % pgsize ≠ 0 then false
  else
    match buddyFindRegion al address with
    | none => false
    | some region =>
      match al.regions[region]? with
      | none => false
      | some r =>
        if !buddyBlockFits r address order then false
        else
          match buddyState r address with
          | none => false
          | some j => al.states region j == buddyStateAllocated order

/-- The merging loop of `buddy_free`: while the block's buddy is a free block of the region, take it off
    its list and go on with their union. `fuel` is the number of orders left below the largest. -/
def buddyMerge (region : Nat) (r : BuddyRegion) :
    Nat → BuddyAllocator → Nat → Nat → BuddyAllocator × Nat × Nat
  | 0, al, address, current => (al, address, current)
  | fuel + 1, al, address, current =>
    let buddy := address ^^^ buddyOrderSize current
    if !buddyBlockFits r buddy current then (al, address, current)
    else
      match buddyState r buddy with
      | none => (al, address, current)
      | some j =>
        if al.states region j != buddyStateFree current then (al, address, current)
        else
          let al := buddyListRemove al buddy current
          let al := al.setState region (some j) buddyStateUnused
          buddyMerge region r fuel al (if buddy < address then buddy else address) (current + 1)

/-- `buddy_free`: `0` on success, `-1` when `(address, order)` is not an allocated block. -/
def buddyFree (address order : Nat) : BuddyAllocator × Int :=
  if !buddyAllocated al address order then (al, -1)
  else
    match buddyFindRegion al address with
    | none => (al, -1)
    | some region =>
      match al.regions[region]? with
      | none => (al, -1)
      | some r =>
        let al := al.setState region (buddyState r address) buddyStateUnused
        let (al, address, current) := buddyMerge region r (buddyMaxOrder - order) al address order
        let al := buddyListAdd al region r address current
        ({ al with freePages := al.freePages + 1 <<< order }, 0)

end Caffeinix.Buddy
