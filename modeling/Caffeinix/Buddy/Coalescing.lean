import Caffeinix.Buddy.History

/-!
# `Buddy.Coalescing` — free memory has one shape

Within the allocatable part of a region the free blocks form a coalesced aligned tiling of the free
addresses (`Core.regionTiling`, `Core.regionCoalesced`), so the library's completeness and canonicity
theorems apply: an allocation fails only when there is no aligned free run, and histories that agree on the
regions and on the free pages agree on the free blocks.
-/

namespace Caffeinix.Buddy

open List Tiling

variable {S : Set Nat} {al al' : BuddyAllocator} {out hand : List Block} {r r' : BuddyRegion}

/-- The byte at `x` is in a free block. -/
def FreeAt (al : BuddyAllocator) (x : Nat) : Prop := ∃ b ∈ freeBlocks al, b.Has x

/-- The free addresses of the region. -/
def regionFree (al : BuddyAllocator) (r : BuddyRegion) : Set Nat := {x | x ∈ r.allocatable ∧ FreeAt al x}

/-- The free blocks of the region. -/
def regionBlocks (al : BuddyAllocator) (r : BuddyRegion) : Set Block :=
  {b | b ∈ freeBlocks al ∧ BlockIn r b}

variable {b : Block} {k : Nat} {S' : Set Nat} {out' : List Block}

section
variable (h : Core S al out hand)
include h

section
variable (hr : r ∈ al.regions)
include hr

/-- A free block that meets the allocatable part of a region lies in it. -/
theorem Core.fits_of_has (hb : b ∈ freeBlocks al) {x : Nat} (hx : b.Has x)
    (hxr : x ∈ r.allocatable) : Fits r b := by
  obtain ⟨s, hs, hf⟩ := h.fits b (mem_append_right _ (mem_append_right _ hb))
  exact h.region_eq_of_mem hs hr (hf.inside.has hx) hxr ▸ hf

theorem Core.regionTiling : AlignedTiling pgshift maxExp (regionFree al r) (regionBlocks al r) := by
  have hfits : ∀ b ∈ regionBlocks al r, Fits r b := fun b hb =>
    h.fits_of_has hr hb.1 b.has_base (hb.2.has b.has_base)
  refine ⟨fun b hb => (hfits b hb).aligned, fun b hb => (hfits b hb).lo_le,
    fun b hb => (hfits b hb).le_hi, ?_, ?_⟩
  · intro b hb c hc hne
    have hall : ∀ d ∈ freeBlocks al, d ∈ hand ++ (out ++ freeBlocks al) := fun d hd =>
      mem_append_right _ (mem_append_right _ hd)
    exact h.tiles.apart.forall (hall b hb.1) (hall c hc.1) hne
  · intro x
    constructor
    · rintro ⟨hxr, b, hb, hbx⟩
      exact ⟨b, ⟨hb, (h.fits_of_has hr hb hbx hxr).inside⟩, hbx⟩
    · rintro ⟨b, ⟨hb, hin⟩, hbx⟩
      exact ⟨hin.has hbx, b, hb, hbx⟩

theorem Core.regionCoalesced : Coalesced maxExp (regionBlocks al r) := by
  rintro b ⟨hb, hin⟩ hlt ⟨hbb, hinb⟩
  exact h.coalesced r hr b hb hlt hbb hin hinb

end

/-! ## Free runs -/

/-- An aligned run of `2^order` pages in the allocatable part of `r`, all free. -/
structure FreeRun (al : BuddyAllocator) (r : BuddyRegion) (address order : Nat) : Prop where
  aligned : (pageBlock address order).Aligned
  inside : BlockIn r (pageBlock address order)
  free : ∀ x, (pageBlock address order).Has x → FreeAt al x

/-- A free run lies inside one free block. -/
theorem FreeRun.exists_block {a : Nat} (hr : r ∈ al.regions) (hk : k ≤ buddyMaxOrder)
    (hrun : FreeRun al r a k) : ∃ l, k ≤ l ∧ l ≤ buddyMaxOrder ∧ (al.areas l).blocks ≠ [] := by
  have htiling := h.regionTiling hr
  obtain ⟨t, ht, hw⟩ := exists_tile_above htiling (h.regionCoalesced hr) k (pageBlock a k)
    (Nat.add_comm _ _) (Nat.add_le_add_right hk _) hrun.aligned
    fun x hx => ⟨hrun.inside.has hx, hrun.free x hx⟩
  have hle : k + pgshift ≤ t.exp := hw.exp_le
  have hmem := ht.1
  rw [eq_pageBlock (htiling.lo_le t ht)] at hmem
  obtain ⟨hl, ha⟩ := pageBlock_mem_freeBlocks.mp hmem
  exact ⟨t.exp - pgshift, Nat.le_sub_of_add_le hle, hl, ne_nil_of_mem ha⟩

/-- A free block holds a free run of every smaller order. -/
theorem exists_freeRun {l : Nat} (hkl : k ≤ l) (hl : l ≤ buddyMaxOrder) (hne : (al.areas l).blocks ≠ []) :
    ∃ r ∈ al.regions, ∃ a, FreeRun al r a k := by
  obtain ⟨a, ha⟩ := exists_mem_of_ne_nil _ hne
  have hm := pageBlock_mem_freeBlocks.mpr ⟨hl, ha⟩
  obtain ⟨r, hr, hf⟩ := h.fits _ (mem_append_right _ (mem_append_right _ hm))
  have hs := hf.shrink hkl
  refine ⟨r, hr, a, hs.aligned, hs.inside, fun x hx => ⟨_, hm, hx.1, hx.2.trans_le ?_⟩⟩
  exact Nat.add_le_add_left (Nat.pow_le_pow_right (by decide) (Nat.add_le_add_right hkl _)) _

end

/-- For an order the allocator serves, `buddy_alloc` fails exactly when no region has a free run. -/
theorem buddyAlloc_null_iff (h : Inv al out) {order : Nat} (ho : order ≤ buddyMaxOrder) :
    (buddyAlloc al order).2 = 0 ↔ ¬ ∃ r ∈ al.regions, ∃ a, FreeRun al r a order := by
  rcases buddyAlloc_spec h order with ⟨he, hwhy⟩ | ⟨al', p, he, hp, _, ⟨l, hol, hl, hne⟩, _, _⟩
  · rw [he]
    refine iff_of_true rfl ?_
    rintro ⟨r, hr, a, hrun⟩
    obtain ⟨l, hol, hl, hne⟩ := hrun.exists_block h.core hr ho
    rcases hwhy with hbig | hempty
    · exact absurd ho (Nat.not_le.mpr hbig)
    · exact hne (hempty l hol hl)
  · rw [he]
    refine iff_of_false hp fun hno => hno ?_
    exact exists_freeRun h.core hol hl hne

/-! ## Histories -/

/-- The allocator manages `[lo, hi)` as the allocatable part of one region. -/
def HasPart (al : BuddyAllocator) (lo hi : Nat) : Prop :=
  ∃ r ∈ al.regions, r.allocatableStart = lo ∧ r.finish = hi

section
variable (h : Core S al out []) (h' : Core S' al' out' [])
include h h'

/-- In one region the free addresses determine the free blocks. -/
theorem regionBlocks_eq (hr : r ∈ al.regions)
    (hr' : r' ∈ al'.regions) (hlo : r'.allocatableStart = r.allocatableStart) (hhi : r'.finish = r.finish)
    (hfree : ∀ x, FreeAt al x ↔ FreeAt al' x) : regionBlocks al r = regionBlocks al' r' := by
  have hF : regionFree al' r' = regionFree al r := by
    ext x
    show (r'.allocatableStart ≤ x ∧ x < r'.finish) ∧ FreeAt al' x ↔
      (r.allocatableStart ≤ x ∧ x < r.finish) ∧ FreeAt al x
    rw [hlo, hhi, hfree]
  have htiling := h'.regionTiling hr'
  rw [hF] at htiling
  exact tiles_eq_of_coalesced (h.regionTiling hr) htiling (h.regionCoalesced hr) (h'.regionCoalesced hr')

theorem freeBlocks_subset
    (hparts : ∀ lo hi, HasPart al lo hi → HasPart al' lo hi) (hfree : ∀ x, FreeAt al x ↔ FreeAt al' x)
    (hb : b ∈ freeBlocks al) : b ∈ freeBlocks al' := by
  obtain ⟨r, hr, hf⟩ := h.fits b (mem_append_right _ (mem_append_right _ hb))
  obtain ⟨r', hr', hlo, hhi⟩ := hparts _ _ ⟨r, hr, rfl, rfl⟩
  have heq := regionBlocks_eq h h' hr hr' hlo hhi hfree
  have hmem : b ∈ regionBlocks al r := ⟨hb, hf.inside⟩
  exact (heq ▸ hmem).1

end

/-- **The free blocks are always fully coalesced.** After any sequence of calls no two free buddies of one
    order below `BUDDY_MAX_ORDER` lie in the allocatable part of one region. Hence `buddy_alloc` refuses an
    order up to `BUDDY_MAX_ORDER` exactly when no region holds a naturally aligned free run of that size
    (and always refuses a larger one), and histories with the same allocatable parts and the same free
    addresses have the same free blocks. -/
theorem buddy_coalesced (ops : List BuddyOp) :
    (∀ r ∈ (buddyRun ops).allocator.regions, ∀ order, order < buddyMaxOrder → ∀ address,
      pageBlock address order ∈ freeBlocks (buddyRun ops).allocator →
      pageBlock (address ^^^ buddyOrderSize order) order ∈ freeBlocks (buddyRun ops).allocator →
      ¬ (BlockIn r (pageBlock address order) ∧
          BlockIn r (pageBlock (address ^^^ buddyOrderSize order) order))) ∧
    (∀ order, order ≤ buddyMaxOrder →
      ((buddyAlloc (buddyRun ops).allocator order).2 = 0 ↔
        ¬ ∃ r ∈ (buddyRun ops).allocator.regions, ∃ address,
          FreeRun (buddyRun ops).allocator r address order)) ∧
    (∀ order, buddyMaxOrder < order →
      buddyAlloc (buddyRun ops).allocator order = ((buddyRun ops).allocator, 0)) ∧
    (∀ ops',
      (∀ lo hi, HasPart (buddyRun ops).allocator lo hi ↔ HasPart (buddyRun ops').allocator lo hi) →
      (∀ x, FreeAt (buddyRun ops).allocator x ↔ FreeAt (buddyRun ops').allocator x) →
      ∀ b, b ∈ freeBlocks (buddyRun ops).allocator ↔ b ∈ freeBlocks (buddyRun ops').allocator) := by
  have h := inv_run ops
  refine ⟨?_, fun order ho => buddyAlloc_null_iff h ho, ?_, ?_⟩
  · intro r hr order ho a ha hb hboth
    rw [← pageBlock_buddy] at hb hboth
    exact h.core.coalesced r hr _ ha (Nat.add_lt_add_right ho _) hb hboth.1 hboth.2
  · intro order ho
    unfold buddyAlloc
    rw [if_pos ho]
  · intro ops' hparts hfree b
    have h' := inv_run ops'
    constructor
    · exact freeBlocks_subset h.core h'.core (fun lo hi => (hparts lo hi).mp) hfree
    · exact freeBlocks_subset h'.core h.core (fun lo hi => (hparts lo hi).mpr) fun x => (hfree x).symm

/-! ## Two limits of the coalescing

Orders past `BUDDY_MAX_ORDER` are refused whatever is free, and buddies are never merged across regions. -/

/-- `buddy_add_region(start, end, start, states, (end - start) / PGSIZE)`. -/
def wholeRegion (start finish : Nat) (hpos : 0 < start) : BuddyOp :=
  .addRegion ⟨start, finish, start, true, (finish - start) / pgsize, hpos⟩

/-- `2^19` pages, naturally aligned and in one region. -/
def hugeHistory : List BuddyOp := [wholeRegion 0x80000000 0x100000000 (by decide)]

/-- Two pages as one region. -/
def joinedHistory : List BuddyOp := [wholeRegion 0x2000 0x4000 (by decide)]

/-- The same two pages as two regions. -/
def dividedHistory : List BuddyOp :=
  [wholeRegion 0x2000 0x3000 (by decide), wholeRegion 0x3000 0x4000 (by decide)]

theorem freeBlocks_hugeHistory :
    freeBlocks (buddyRun hugeHistory).allocator = [⟨0xc0000000, 30⟩, ⟨0x80000000, 30⟩] := by
  decide +kernel

theorem regions_hugeHistory :
    (buddyRun hugeHistory).allocator.regions = [⟨0x80000000, 0x100000000, 0x80000000, 0x80000⟩] := by
  rfl

theorem freeBlocks_joinedHistory :
    freeBlocks (buddyRun joinedHistory).allocator = [⟨0x2000, 13⟩] := by
  decide +kernel

theorem freeBlocks_dividedHistory :
    freeBlocks (buddyRun dividedHistory).allocator = [⟨0x3000, 12⟩, ⟨0x2000, 12⟩] := by
  decide +kernel

/-- An order above the maximum is refused although a free run of its size exists; and one region and two
    regions over the same two free pages have different free blocks. -/
theorem buddy_coalescing_limits :
    ((buddyAlloc (buddyRun hugeHistory).allocator 19).2 = 0 ∧
      ∃ r ∈ (buddyRun hugeHistory).allocator.regions, ∃ address,
        FreeRun (buddyRun hugeHistory).allocator r address 19) ∧
    ((∀ x, FreeAt (buddyRun joinedHistory).allocator x ↔ FreeAt (buddyRun dividedHistory).allocator x) ∧
      pageBlock 0x2000 1 ∈ freeBlocks (buddyRun joinedHistory).allocator ∧
      pageBlock 0x2000 1 ∉ freeBlocks (buddyRun dividedHistory).allocator) := by
  refine ⟨⟨?_, ?_⟩, ?_, ?_, ?_⟩
  · unfold buddyAlloc
    rw [if_pos (by decide)]
  · rw [regions_hugeHistory]
    have hal : 2 ^ 31 ∣ 0x80000000 := by decide
    have hin : 0x80000000 ≤ 0x80000000 ∧ 0x80000000 + 2 ^ 31 ≤ 0x100000000 := by decide
    refine ⟨_, mem_singleton.mpr rfl, 0x80000000, hal, hin, fun x hx => ?_⟩
    simp only [FreeAt, freeBlocks_hugeHistory, mem_cons, not_mem_nil, or_false,
      exists_eq_or_imp, exists_eq_left]
    simp only [Block.Has, pageBlock, pgshift] at hx ⊢
    omega
  · intro x
    simp only [FreeAt, freeBlocks_joinedHistory, freeBlocks_dividedHistory, mem_cons,
      not_mem_nil, or_false, exists_eq_or_imp, exists_eq_left, Block.Has]
    omega
  · rw [freeBlocks_joinedHistory]
    decide
  · rw [freeBlocks_dividedHistory]
    decide

end Caffeinix.Buddy
