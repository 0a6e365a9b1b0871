import Caffeinix.Buddy.History

/-!
# `Buddy.Heap` — `malloc` and `calloc` (`kernel/palloc.c`)

The heap is a list of pages, each with a bitmap of its bytes; `malloc` looks for room in the first page of the list,
and if there is none takes a page from the allocator, puts it in front and looks again. The new page stays in the
list also if the request does not fit in any page: then the call fails and has cost a page (`malloc_loses_page`). A
call that fails changes nothing in all other cases, and only in these (`failed_malloc_unchanged`).

What `malloc` writes before the memory it returns is left out, and so are the references of the pages.
-/

namespace Caffeinix.Buddy

/-- `PAGE_BLOCK`. -/
def pageBlockStart : Nat := 512

/-- The bits of `bitmap`: `8 * BITMAP_SIZE`. -/
def bitmapBits : Nat := 4096 - pageBlockStart

/-- `INFO_BLOCK`. -/
def infoBlock : Nat := 32

/-- `MALLOC_ALIGNMENT_BLOCKS`. -/
def mallocAlignmentBlocks : Nat := 16

/-- `ALIGN_BLOCKS`. -/
def alignBlocks (x : Nat) : Nat := (x + mallocAlignmentBlocks - 1) / mallocAlignmentBlocks * mallocAlignmentBlocks

/-- `struct page`, with its address. -/
structure HeapPage where
  address : Nat
  used : Nat
  bitmap : Nat → Bool

/-- `pool.list` and the pages it grows from. -/
structure Heap where
  pool : List HeapPage
  allocator : BuddyAllocator

/-- The loops of `malloc_core`, with the bits that are left, the number of the next, `count` and `start`. -/
def mallocScan (bitmap : Nat → Bool) (blocks : Nat) : Nat → Nat → Nat → Nat → Option Nat
  | 0, _, _, _ => none
  | left + 1, offset, count, start =>
    if bitmap offset then mallocScan bitmap blocks left (offset + 1) 0 0
    else if count = 0 ∧ offset % mallocAlignmentBlocks ≠ 0 then mallocScan bitmap blocks left (offset + 1) count start
    else
      let start := if count = 0 then offset else start
      if count + 1 = blocks then some start else mallocScan bitmap blocks left (offset + 1) (count + 1) start

/-- `malloc_core` on the first page, and the pointer `malloc` returns. -/
def mallocCore (h : Heap) (blocks : Nat) : Option (Heap × Nat) :=
  match h.pool with
  | [] => none
  | page :: rest =>
    match mallocScan page.bitmap blocks bitmapBits 0 0 0 with
    | none => none
    | some start =>
      let page := { page with
        used := page.used + blocks
        bitmap := fun k => page.bitmap k || (start ≤ k && k < start + blocks) }
      some ({ h with pool := page :: rest }, page.address + (start + pageBlockStart) + infoBlock)

/-- `malloc_page`. -/
def mallocPage (h : Heap) : Heap × Nat :=
  let (allocator, page) := buddyAlloc h.allocator 0
  (⟨if page = 0 then h.pool else ⟨page, 0, fun _ => false⟩ :: h.pool, allocator⟩, page)

/-- `malloc`: the pointer, or `0`. -/
def malloc (h : Heap) (size : Nat) : Heap × Nat :=
  if size = 0 || size > uint64Max - infoBlock - (mallocAlignmentBlocks - 1) then (h, 0)
  else
    let blocks := alignBlocks (size + infoBlock)
    match mallocCore h blocks with
    | some r => r
    | none =>
      let (h, page) := mallocPage h
      if page = 0 then (h, 0) else (mallocCore h blocks).getD (h, 0)

/-- `calloc`. -/
def calloc (h : Heap) (count size : Nat) : Heap × Nat :=
  if size ≠ 0 && count > uint64Max / size then (h, 0) else malloc h (count * size)

/-! ## Room in a page -/

/-- In a page that is empty there is room for everything that fits in a page. -/
theorem mallocScan_empty {blocks : Nat} (left : Nat) :
    ∀ count, count < blocks → blocks ≤ count + left →
      mallocScan (fun _ => false) blocks left count count 0 = some 0 := by
  induction left with
  | zero =>
    intro count hlt hle
    omega
  | succ left ih =>
    intro count hlt hle
    have halign : ¬(count = 0 ∧ count % mallocAlignmentBlocks ≠ 0) := by
      rintro ⟨rfl, hne⟩
      exact hne rfl
    have hstart : (if count = 0 then count else 0) = 0 := by
      split_ifs with hzero
      · exact hzero
      · rfl
    simp only [mallocScan, Bool.false_eq_true, if_false, if_neg halign, hstart]
    split_ifs with hfound
    · rfl
    · exact ih (count + 1) (by omega) (by omega)

/-- In no page is there room for more than the bits that are left to look at. -/
theorem mallocScan_none {bitmap : Nat → Bool} {blocks : Nat} (left : Nat) :
    ∀ offset count start, count + left < blocks → mallocScan bitmap blocks left offset count start = none := by
  induction left with
  | zero =>
    intro offset count start hlt
    rfl
  | succ left ih =>
    intro offset count start hlt
    have hne : count + 1 ≠ blocks := by omega
    simp only [mallocScan, if_neg hne, ih _ count _ (by omega), ih _ (count + 1) _ (by omega),
      ih _ 0 _ (by omega), ite_self]

theorem mallocCore_none {h : Heap} {blocks : Nat} (hlarge : bitmapBits < blocks) : mallocCore h blocks = none := by
  unfold mallocCore
  cases h.pool with
  | nil => rfl
  | cons page rest => simp only [mallocScan_none bitmapBits 0 0 0 (by omega : 0 + bitmapBits < blocks)]

/-- The pointer to memory that was found is not null. -/
theorem mallocCore_pos {h : Heap} {blocks : Nat} {r : Heap × Nat} (he : mallocCore h blocks = some r) : r.2 ≠ 0 := by
  unfold mallocCore at he
  split at he
  · exact nomatch he
  · split at he
    · exact nomatch he
    · obtain rfl := Option.some.inj he
      simp [infoBlock]

/-! ## What a failed call costs -/

/-- The request fits in a page, or it is refused at once, or there is no page. -/
def Harmless (h : Heap) (size : Nat) : Prop :=
  alignBlocks (size + infoBlock) ≤ bitmapBits ∨ size > uint64Max - infoBlock - (mallocAlignmentBlocks - 1) ∨
    (mallocPage h).2 = 0

/-- A page that is taken is in front of the list, and empty. -/
theorem mallocPage_cases {h : Heap} {out : List Tiling.Block} (hI : Inv h.allocator out) :
    mallocPage h = (h, 0) ∨ ∃ allocator page, page ≠ 0 ∧
      mallocPage h = (⟨⟨page, 0, fun _ => false⟩ :: h.pool, allocator⟩, page) := by
  rcases buddyAlloc_spec hI 0 with ⟨hnone, -⟩ | ⟨allocator, page, hpage, hne, -⟩
  · exact .inl (by simp [mallocPage, hnone])
  · exact .inr ⟨allocator, page, hne, by simp [mallocPage, hpage, hne]⟩

theorem malloc_unchanged_iff {h : Heap} {out : List Tiling.Block} (hI : Inv h.allocator out) (size : Nat) :
    ((malloc h size).2 = 0 → (malloc h size).1 = h) ↔ Harmless h size := by
  by_cases hfits : alignBlocks (size + infoBlock) ≤ bitmapBits
  · refine iff_of_true (fun hnull => ?_) (.inl hfits)
    unfold malloc at hnull ⊢
    split_ifs at hnull ⊢
    · rfl
    simp only at hnull ⊢
    cases hcore : mallocCore h (alignBlocks (size + infoBlock)) with
    | some =>
      rw [hcore] at hnull
      exact absurd hnull (mallocCore_pos hcore)
    | none =>
      simp only [hcore] at hnull ⊢
      rcases mallocPage_cases hI with hnone | ⟨allocator, page, hne, hnew⟩
      · simp [hnone]
      -- the request fits in the new page, which is empty
      have hpositive : 0 < alignBlocks (size + infoBlock) := by
        simp only [alignBlocks, mallocAlignmentBlocks, infoBlock]
        omega
      obtain ⟨r, hr⟩ : ∃ r, mallocCore (mallocPage h).1 (alignBlocks (size + infoBlock)) = some r := by
        simp [hnew, mallocCore, mallocScan_empty bitmapBits 0 hpositive (by omega)]
      rw [if_neg (by simpa [hnew] using hne), hr] at hnull
      exact absurd hnull (mallocCore_pos hr)
  · -- it fits in no page, so the call fails, and a page that it takes stays in the list
    have hcore : ∀ h : Heap, mallocCore h (alignBlocks (size + infoBlock)) = none :=
      fun _ => mallocCore_none (by omega)
    have hzero : size ≠ 0 := by
      rintro rfl
      exact hfits (by decide)
    by_cases hrefused : size > uint64Max - infoBlock - (mallocAlignmentBlocks - 1)
    · exact iff_of_true (fun _ => by simp [malloc, hrefused]) (.inr (.inl hrefused))
    · simp only [malloc, hzero, hrefused, hcore, Harmless, hfits, decide_false, Bool.or_self, Bool.false_eq_true,
        if_false, Option.getD_none, ite_self, false_or]
      rcases mallocPage_cases hI with hnone | ⟨allocator, page, hne, hnew⟩
      · simp [hnone]
      · refine iff_of_false (fun hsame => ?_) (by simpa [hnew] using hne)
        have hlength := congrArg (fun h => h.pool.length) (hsame trivial)
        rw [hnew] at hlength
        exact absurd hlength (by simp)

/-- **A call that fails changes nothing**, unless it takes a page the request does not fit in, and only then. -/
theorem failed_malloc_unchanged (ops : List BuddyOp) (pool : List HeapPage) :
    let h : Heap := ⟨pool, (buddyRun ops).allocator⟩
    (∀ size, ((malloc h size).2 = 0 → (malloc h size).1 = h) ↔ Harmless h size) ∧
      ∀ count size, ((calloc h count size).2 = 0 → (calloc h count size).1 = h) ↔ Harmless h (count * size) := by
  intro h
  have hI : Inv h.allocator (buddyRun ops).blocks := inv_run ops
  refine ⟨malloc_unchanged_iff hI, fun count size => ?_⟩
  unfold calloc
  split_ifs with hoverflow
  · -- the product is refused, as the other large requests are
    simp only [ne_eq, Bool.and_eq_true, decide_eq_true_eq, gt_iff_lt] at hoverflow
    have hlarge := (Nat.div_lt_iff_lt_mul (Nat.pos_of_ne_zero hoverflow.1)).mp hoverflow.2
    exact iff_of_true (fun _ => rfl) (.inr (.inl (lt_of_le_of_lt (by omega) hlarge)))
  · exact malloc_unchanged_iff hI (count * size)

theorem onePage_pos : 0 < 0x2000 := by decide

/-- An allocator with one page. -/
def onePage : List BuddyOp := [.addRegion ⟨0x2000, 0x3000, 0x2000, true, 1, onePage_pos⟩]

def onePageHeap : Heap := ⟨[], (buddyRun onePage).allocator⟩

theorem onePageHeap_calloc : (calloc onePageHeap (2 ^ 63) 2).1 = onePageHeap := by
  obtain ⟨-, hcalloc⟩ := failed_malloc_unchanged onePage []
  exact (hcalloc (2 ^ 63) 2).mpr (.inr (.inl (by decide))) (by decide +kernel)

/-- A request of 3553 bytes fails and the page is in the pool. -/
theorem malloc_loses_page :
    let r := malloc onePageHeap 3553
    r.2 = 0 ∧ onePageHeap.pool.length = 0 ∧ r.1.pool.length = 1 ∧
      onePageHeap.allocator.freePages = 1 ∧ r.1.allocator.freePages = 0 := by
  decide +kernel

end Caffeinix.Buddy
