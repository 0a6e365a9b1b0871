import Caffeinix.Buddy.Operations

/-!
# `Buddy.History` — the allocator over arbitrary sequences of calls

A history is any list of calls. Beside the allocator it keeps what its callers know from the results alone:
the blocks `buddy_alloc` returned and no accepted `buddy_free` gave back (`outstanding`).

* `buddy_partition` — after any history the allocatable pages are exactly partitioned into free and
  outstanding blocks, the state bytes and counters agree, and `buddy_free` accepts nothing else.
-/

namespace Caffeinix.Buddy

open List Tiling Block

/-- A call. -/
inductive BuddyOp
  | addRegion (args : RegionArgs)
  | alloc (order : Nat)
  | free (address order : Nat)

/-- The allocator and the blocks `(address, order)` handed out and not yet freed. -/
structure BuddyHistory where
  allocator : BuddyAllocator
  outstanding : List (Nat × Nat)

/-- One call and what its result tells the callers. -/
def BuddyHistory.step (s : BuddyHistory) : BuddyOp → BuddyHistory
  | .addRegion args => { s with allocator := (buddyAddRegion s.allocator args).1 }
  | .alloc order =>
    let (al, p) := buddyAlloc s.allocator order
    ⟨al, if p = 0 then s.outstanding else (p, order) :: s.outstanding⟩
  | .free address order =>
    let (al, result) := buddyFree s.allocator address order
    ⟨al, if result = 0 then s.outstanding.erase (address, order) else s.outstanding⟩

/-- The history of a list of calls, from `buddy_init`. -/
def buddyRun (ops : List BuddyOp) : BuddyHistory := ops.foldl BuddyHistory.step ⟨buddyInit, []⟩

/-- The outstanding blocks. -/
def BuddyHistory.blocks (s : BuddyHistory) : List Block := s.outstanding.map fun p => pageBlock p.1 p.2

variable {a k : Nat} {s : BuddyHistory} {S : Set Nat} {al : BuddyAllocator} {out : List Block}

theorem mem_blocks : pageBlock a k ∈ s.blocks ↔ (a, k) ∈ s.outstanding := by
  simp only [BuddyHistory.blocks, mem_map, Prod.exists, pageBlock_inj]
  constructor
  · rintro ⟨b, l, h, rfl, rfl⟩
    exact h
  · intro h
    exact ⟨a, k, h, rfl, rfl⟩

theorem pageBlock_injective : Function.Injective fun p : Nat × Nat => pageBlock p.1 p.2 := by
  rintro ⟨a, k⟩ ⟨b, l⟩ h
  obtain ⟨h1, h2⟩ := pageBlock_inj.mp h
  simp only at h1 h2
  rw [h1, h2]

theorem inv_init : Inv buddyInit [] where
  core :=
    { wf := fun r hr => absurd hr (by simp [buddyInit])
      regions := List.Pairwise.nil
      fits := fun b hb => absurd hb (by simp [mem_freeBlocks, buddyInit])
      tiles := by
        have hfree : freeBlocks buddyInit = [] := rfl
        rw [hfree]
        refine ⟨List.Pairwise.nil, fun x => ?_⟩
        constructor
        · rintro ⟨r, hr, _⟩
          exact absurd hr (by simp [buddyInit])
        · rintro ⟨b, hb, _⟩
          exact absurd hb (by simp)
      states := fun i r hi => absurd hi (by simp [buddyInit])
      counts := fun _ => rfl
      beyond := fun _ _ => rfl
      coalesced := fun r hr => absurd hr (by simp [buddyInit]) }
  pages := rfl

/-- **One call keeps the invariant.** -/
theorem inv_step (h : Inv s.allocator s.blocks) (op : BuddyOp) :
    Inv (s.step op).allocator (s.step op).blocks := by
  cases op with
  | addRegion args =>
    rcases buddyAddRegion_spec h args with he | ⟨al', he, _, hinv⟩
    · simp only [BuddyHistory.step, he]
      exact h
    · simp only [BuddyHistory.step, he]
      exact hinv
  | alloc order =>
    rcases buddyAlloc_spec h order with ⟨he, _⟩ | ⟨al', p, he, hp, _, _, _, hinv⟩
    · simp only [BuddyHistory.step, he, if_true]
      exact h
    · simp only [BuddyHistory.step, he, if_neg hp]
      exact hinv
  | free address order =>
    by_cases hm : (address, order) ∈ s.outstanding
    · obtain ⟨al', he, _, hinv⟩ := buddyFree_of_mem h (mem_blocks.mpr hm)
      simp only [BuddyHistory.step, he, if_true]
      show Inv al' ((s.outstanding.erase (address, order)).map fun p => pageBlock p.1 p.2)
      rw [map_erase pageBlock_injective]
      exact hinv
    · have he := buddyFree_of_not_mem h.core (fun hb => hm (mem_blocks.mp hb))
      simp only [BuddyHistory.step, he, if_neg (by decide : ¬ (-1 : Int) = 0)]
      exact h

/-- **Every history keeps the invariant.** -/
theorem inv_run (ops : List BuddyOp) : Inv (buddyRun ops).allocator (buddyRun ops).blocks := by
  have hfold : ∀ (ops : List BuddyOp) (s : BuddyHistory), Inv s.allocator s.blocks →
      Inv (ops.foldl BuddyHistory.step s).allocator (ops.foldl BuddyHistory.step s).blocks := by
    intro ops
    induction ops with
    | nil => intro s h; exact h
    | cons op ops ih => intro s h; exact ih (s.step op) (inv_step h op)
  exact hfold ops _ inv_init

/-! ## The partition -/

/-- The state byte of the page at `x` of region `i`. -/
def stateByte (al : BuddyAllocator) (i : Nat) (r : BuddyRegion) (x : Nat) : UInt8 :=
  al.states i ((x - r.start) / pgsize)

/-- What is known about one block of `order` at `address` whose first page should read `byte`. -/
def BlockOk (al : BuddyAllocator) (address order : Nat) (byte : UInt8) : Prop :=
  order ≤ buddyMaxOrder ∧ pgsize * 2 ^ order ∣ address ∧
  ∃ i r, al.regions[i]? = some r ∧ r.allocatableStart ≤ address ∧
    address + pgsize * 2 ^ order ≤ r.finish ∧ stateByte al i r address = byte ∧
    ∀ j, 0 < j → j < 2 ^ order → stateByte al i r (address + j * pgsize) = buddyStateUnused

/-- **The exact partition of the allocatable pages.** -/
structure BuddyPartition (s : BuddyHistory) : Prop where
  /-- free and outstanding blocks are pairwise apart and cover exactly the allocatable addresses -/
  partition : Tiles (allocatable s.allocator) (freeBlocks s.allocator ++ s.blocks)
  free : ∀ order, order ≤ buddyMaxOrder → ∀ address ∈ (s.allocator.areas order).blocks,
    BlockOk s.allocator address order (buddyStateFree order)
  outstanding : ∀ address order, (address, order) ∈ s.outstanding →
    BlockOk s.allocator address order (buddyStateAllocated order)
  count : ∀ order, order ≤ buddyMaxOrder →
    (s.allocator.areas order).count = (s.allocator.areas order).blocks.length
  pages : s.allocator.freePages = freePageSum s.allocator
  freed : ∀ address order, (address, order) ∈ s.outstanding →
    (buddyFree s.allocator address order).2 = 0
  refused : ∀ address order, (address, order) ∉ s.outstanding →
    buddyFree s.allocator address order = (s.allocator, -1)

/-- The pages of a tile past its first start no block. -/
theorem Core.inner_unused {i : Nat} {r : BuddyRegion} (h : Core S al out [])
    (hm : pageBlock a k ∈ out ++ freeBlocks al) (hi : al.regions[i]? = some r) (hf : Fits r (pageBlock a k))
    {j : Nat} (hj : 0 < j) (hjk : j < 2 ^ k) : stateByte al i r (a + j * pgsize) = buddyStateUnused := by
  have hwf := h.wf r (mem_of_getElem? hi)
  have hbase := hf.base_in hwf
  rw [pageBlock_base] at hbase
  have hfin : a + 2 ^ (k + pgshift) ≤ r.finish := hf.inside.2
  have hlt : j * pgsize < 2 ^ (k + pgshift) := by
    rw [Nat.pow_add, ← pgsize_eq]
    exact Nat.mul_lt_mul_of_pos_right hjk pgsize_pos
  have hjp : 0 < j * pgsize := Nat.mul_pos hj pgsize_pos
  have hhas : (pageBlock a k).Has (a + j * pgsize) := by
    simp only [Block.Has, pageBlock_base, pageBlock_exp]
    omega
  -- a block starting here would share the page with the tile, hence be the tile
  have hno : ∀ l, pageBlock (a + j * pgsize) l ∉ out ++ freeBlocks al := by
    intro l hl
    have he := h.tiles.eq_of_has hl hm (has_base _) hhas
    have := (pageBlock_inj.mp he).1
    omega
  have hps := h.states i r hi (a + j * pgsize) (by omega) (by omega)
    (Nat.dvd_add hf.page (Nat.dvd_mul_left _ _))
  unfold stateByte
  generalize al.states i ((a + j * pgsize - r.start) / pgsize) = w at hps
  cases hps with
  | free hm' => exact absurd (mem_append_right _ hm') (hno _)
  | allocated hm' => exact absurd (mem_append_left _ hm') (hno _)
  | unused => rfl

theorem Core.blockOk {byte : UInt8} (h : Core S al out []) (hm : pageBlock a k ∈ out ++ freeBlocks al)
    (hbyte : ∀ i r, al.regions[i]? = some r → Fits r (pageBlock a k) → stateByte al i r a = byte) :
    BlockOk al a k byte := by
  obtain ⟨i, r, hi, hf, _⟩ := h.region_of hm
  have hpow : pgsize * 2 ^ k = 2 ^ (k + pgshift) := by rw [Nat.pow_add, ← pgsize_eq, Nat.mul_comm]
  refine ⟨hf.order_le, ?_, i, r, hi, hf.inside.1, ?_, hbyte i r hi hf, ?_⟩
  · rw [hpow]
    exact hf.aligned
  · rw [hpow]
    exact hf.inside.2
  · intro j hj hjk
    exact h.inner_unused hm hi hf hj hjk

/-- **After any sequence of calls the allocatable pages are exactly partitioned** into the free blocks and
    the blocks handed out, every block is aligned inside one region with its state bytes right, the list
    counts and `free_pages` are exact, and `buddy_free` of anything not handed out changes nothing. -/
theorem buddy_partition (ops : List BuddyOp) : BuddyPartition (buddyRun ops) := by
  have h := inv_run ops
  generalize buddyRun ops = s at h
  refine ⟨?_, ?_, ?_, fun k _ => h.core.counts k, h.pages, ?_, ?_⟩
  · exact (nil_append _ ▸ h.core.tiles).perm perm_append_comm
  · intro k hk a ha
    have hm := pageBlock_mem_freeBlocks.mpr ⟨hk, ha⟩
    exact h.core.blockOk (mem_append_right _ hm) fun i r hi hf =>
      (h.core.state_free_iff hi hf).mpr hm
  · intro a k hout
    have hm := mem_blocks.mpr hout
    exact h.core.blockOk (mem_append_left _ hm) fun i r hi hf => h.core.state_allocated hi hf hm
  · intro a k hout
    obtain ⟨al', he, _, _⟩ := buddyFree_of_mem h (mem_blocks.mpr hout)
    rw [he]
  · intro a k hout
    exact buddyFree_of_not_mem h.core fun hb => hout (mem_blocks.mp hb)

end Caffeinix.Buddy
