import Caffeinix.Buddy.Invariant

/-!
# `Buddy.Operations` — what `buddy_alloc`, `buddy_free` and `buddy_add_region` do to the invariant

Between calls nothing is in hand and `free_pages` counts the pages on the free lists (`Inv`). One spec per
operation: its result, the blocks it moves, and that `Inv` holds again. The loops are followed by
induction on their counter, each iteration being one or two moves of `Buddy.Invariant`.
-/

namespace Caffeinix.Buddy

open Nat List Tiling

/-- **The invariant between calls**: nothing in hand, every allocatable address in one block, and the page
    counter exact. -/
structure Inv (al : BuddyAllocator) (out : List Block) : Prop where
  core : Core (allocatable al) al out []
  pages : al.freePages = freePageSum al

variable {S : Set Nat} {al : BuddyAllocator} {out hand : List Block} {i a k : Nat} {r : BuddyRegion}

section
variable (al : BuddyAllocator) (i : Nat) (r : BuddyRegion) (a k : Nat)

@[simp] theorem buddyListAdd_regions : (buddyListAdd al i r a k).regions = al.regions := by
  simp only [buddyListAdd, setState_regions, BuddyAllocator.push]

@[simp] theorem buddyListAdd_freePages : (buddyListAdd al i r a k).freePages = al.freePages := by
  simp only [buddyListAdd, setState_freePages, BuddyAllocator.push]

end

theorem freePageSum_listAdd (hk : k ≤ buddyMaxOrder) :
    freePageSum (buddyListAdd al i r a k) = 2 ^ k + freePageSum al := by
  have hperm : (freeBlocks (buddyListAdd al i r a k)).Perm (pageBlock a k :: freeBlocks al) := by
    rw [buddyListAdd, freeBlocks_setState]
    exact freeBlocks_push hk
  rw [freePageSum_perm hperm, blockPages_pageBlock]

theorem freePageSum_listRemove (hm : pageBlock a k ∈ freeBlocks al) :
    freePageSum al = 2 ^ k + freePageSum (buddyListRemove al a k) := by
  obtain ⟨hk, ha⟩ := pageBlock_mem_freeBlocks.mp hm
  rw [freePageSum_perm (freeBlocks_remove hk ha), blockPages_pageBlock]

variable {b : Block} {x order pages address : Nat}

theorem Core.mem_free_has (h : Core S al out hand) (hb : b ∈ freeBlocks al) (hx : b.Has x) : x ∈ S :=
  (h.tiles.cover x).mpr ⟨b, mem_append_right _ (mem_append_right _ hb), hx⟩

/-- The region of a block the invariant speaks about. -/
theorem Core.region_of (h : Core S al out hand) (hb : b ∈ hand ++ (out ++ freeBlocks al)) :
    ∃ i r, al.regions[i]? = some r ∧ Fits r b ∧ buddyFindRegion al b.base = some i := by
  obtain ⟨r, hr, hf⟩ := h.fits b hb
  obtain ⟨i, hi⟩ := List.getElem?_of_mem hr
  exact ⟨i, r, hi, hf, buddyFindRegion_eq h.regions hi (hf.base_in (h.wf r hr))⟩

/-! ## `buddy_alloc` -/

/-- A smaller block at the same address fits where the larger one does. -/
theorem Fits.shrink {l : Nat} (h : Fits r (pageBlock a k)) (hle : l ≤ k) : Fits r (pageBlock a l) := by
  have hpow : 2 ^ (l + pgshift) ≤ 2 ^ (k + pgshift) :=
    Nat.pow_le_pow_right (by decide) (Nat.add_le_add_right hle _)
  have hhi : k + pgshift ≤ maxExp := h.le_hi
  have hfin : a + 2 ^ (k + pgshift) ≤ r.finish := h.inside.2
  refine ⟨?_, Nat.le_add_left _ _, ?_, h.inside.1, ?_⟩
  · exact (Nat.pow_dvd_pow 2 (Nat.add_le_add_right hle _)).trans h.aligned
  · exact Nat.le_trans (Nat.add_le_add_right hle _) hhi
  · exact Nat.le_trans (Nat.add_le_add_left hpow a) hfin

/-- The splitting loop leaves a block of the wanted order in hand and its siblings on the lists. -/
theorem buddySplit_spec :
    ∀ (current : Nat) (al : BuddyAllocator), al.regions[i]? = some r → order ≤ current →
      Core S al out [pageBlock a current] → Fits r (pageBlock a current) →
    let after := buddySplit i r a order current al
    Core S after out [pageBlock a order] ∧ after.regions = al.regions ∧ after.freePages = al.freePages ∧
      freePageSum after + 2 ^ order = freePageSum al + 2 ^ current := by
  intro current
  induction current with
  | zero =>
    intro al _ hle hcore _
    have ho : order = 0 := le_zero.mp hle
    subst ho
    exact ⟨hcore, rfl, rfl, rfl⟩
  | succ current ih =>
    intro al hi hle hcore hf
    unfold buddySplit
    split_ifs with hlt
    · have hal := hf.aligned
      have hkmax := hf.order_le
      have hsplit := hcore.split
      -- the upper half fits, and its buddy is the half still in hand
      have hup : Fits r (pageBlock (a + buddyOrderSize current) current) := by
        have hw := Block.upper_within (b := pageBlock a (current + 1)) (Nat.succ_pos _)
        rw [pageBlock_upper] at hw
        refine ⟨?_, Nat.le_add_left _ _, ?_, hf.inside.1.trans hw.1, hw.2.trans hf.inside.2⟩
        · rw [← pageBlock_upper]
          exact hal.upper
        · exact Nat.add_le_add_right (Nat.le_of_succ_le hkmax) _
      have hbud : (pageBlock (a + buddyOrderSize current) current).buddy = pageBlock a current := by
        rw [← pageBlock_upper, ← hal.buddy_lower (Nat.succ_pos _), Block.buddy_buddy, pageBlock_lower]
      have hnot : pageBlock a current ∉ freeBlocks al := by
        have hnd := hsplit.tiles.nodup
        simp only [cons_append, nil_append, nodup_cons, mem_append,
          not_or] at hnd
        exact hnd.2.1.2
      have hadd := hsplit.add hi hup fun _ _ => hbud ▸ hnot
      obtain ⟨h1, h2, h3, h4⟩ := ih (buddyListAdd al i r (a + buddyOrderSize current) current)
        (by rw [buddyListAdd_regions]; exact hi) (le_of_lt_succ hlt) hadd
        (hf.shrink (le_succ _))
      refine ⟨h1, by rw [h2, buddyListAdd_regions], by rw [h3, buddyListAdd_freePages], ?_⟩
      rw [h4, freePageSum_listAdd (Nat.le_of_succ_le hkmax), Nat.pow_succ]
      omega
    · have ho : order = current + 1 := by omega
      subst ho
      exact ⟨hcore, rfl, rfl, rfl⟩

theorem buddyFindArea_none (h : buddyFindArea al order = none)
    (hcount : ∀ k, (al.areas k).count = (al.areas k).blocks.length) :
    ∀ l, order ≤ l → l ≤ buddyMaxOrder → (al.areas l).blocks = [] := by
  intro l hol hl
  unfold buddyFindArea at h
  rw [List.find?_eq_none] at h
  have hmem : l ∈ List.range' order (buddyMaxOrder + 1 - order) := by
    rw [mem_range'_1]
    omega
  have := h l hmem
  rw [hcount l] at this
  simpa using this

theorem buddyFindArea_some {current : Nat} (h : buddyFindArea al order = some current) :
    order ≤ current ∧ current ≤ buddyMaxOrder ∧ (al.areas current).count ≠ 0 := by
  have hmem := mem_of_find?_eq_some h
  have hp := List.find?_some h
  rw [mem_range'_1] at hmem
  refine ⟨hmem.1, by omega, by simpa using hp⟩

/-- **`buddy_alloc`.** It refuses an order past the largest, and an order for which no list from it on holds
    a block; otherwise it hands out a block of exactly that order. -/
theorem buddyAlloc_spec (h : Inv al out) (order : Nat) :
    (buddyAlloc al order = (al, 0) ∧
      (buddyMaxOrder < order ∨ ∀ l, order ≤ l → l ≤ buddyMaxOrder → (al.areas l).blocks = [])) ∨
    (∃ al' p, buddyAlloc al order = (al', p) ∧ p ≠ 0 ∧ order ≤ buddyMaxOrder ∧
      (∃ l, order ≤ l ∧ l ≤ buddyMaxOrder ∧ (al.areas l).blocks ≠ []) ∧
      al'.regions = al.regions ∧ Inv al' (pageBlock p order :: out)) := by
  unfold buddyAlloc
  by_cases hord : buddyMaxOrder < order
  · left
    rw [if_pos hord]
    exact ⟨rfl, .inl hord⟩
  rw [if_neg hord]
  rcases harea : buddyFindArea al order with _ | current
  · exact .inl ⟨rfl, .inr (buddyFindArea_none harea h.core.counts)⟩
  obtain ⟨hle, hmax, hcount⟩ := buddyFindArea_some harea
  rw [h.core.counts] at hcount
  rcases hblocks : (al.areas current).blocks with _ | address
  · exact absurd (by rw [hblocks]; rfl) hcount
  right
  have hm : pageBlock address current ∈ freeBlocks al :=
    pageBlock_mem_freeBlocks.mpr ⟨hmax, by rw [hblocks]; exact mem_cons_self ..⟩
  obtain ⟨i, r, hi, hf, hfind⟩ :=
    h.core.region_of (mem_append_right _ (mem_append_right _ hm))
  rw [pageBlock_base] at hfind
  have hpos : address ≠ 0 := by
    have h1 := (h.core.wf r (mem_of_getElem? hi)).allocatable_pos
    have h2 : r.allocatableStart ≤ address := hf.inside.1
    omega
  simp only [hblocks, hfind, hi]
  -- off its list, split down to the order, and handed out
  have htake := h.core.take hi hm hf
  have hreg : ((buddyListRemove al address current).setState i (buddyState r address)
      buddyStateUnused).regions = al.regions := by
    rw [setState_regions]
    rfl
  obtain ⟨hs1, hs2, hs3, hs4⟩ := buddySplit_spec current _
    (by rw [hreg]; exact hi) hle htake hf
  rw [hreg] at hs2
  generalize hsp : buddySplit i r address order current _ = al₂ at hs1 hs2 hs3 hs4 ⊢
  have hi₂ : al₂.regions[i]? = some r := by rw [hs2]; exact hi
  have halloc := hs1.allocate hi₂ (hf.shrink hle)
  have hregs : (al₂.setState i (buddyState r address) (buddyStateAllocated order)).regions
      = al.regions := by rw [setState_regions, hs2]
  refine ⟨_, _, rfl, hpos, Nat.le_of_not_lt hord, ⟨current, hle, hmax, ?_⟩, hregs, ?_, ?_⟩
  · rw [hblocks]
    exact cons_ne_nil _ _
  · have hS : allocatable { al₂.setState i (buddyState r address) (buddyStateAllocated order) with
        freePages := (al₂.setState i (buddyState r address) (buddyStateAllocated order)).freePages
          - 1 <<< order } = allocatable al := by
      funext x
      simp only [allocatable, hregs]
    rw [hS]
    exact ⟨halloc.wf, halloc.regions, halloc.fits, halloc.tiles, halloc.states, halloc.counts,
      halloc.beyond, halloc.coalesced⟩
  · have hsum := freePageSum_listRemove hm
    rw [setState_freePages] at hs3
    rw [freePageSum_setState] at hs4
    have hfp : (buddyListRemove al address current).freePages = al.freePages := rfl
    have hpages := h.pages
    show (al₂.setState i (buddyState r address) (buddyStateAllocated order)).freePages - 1 <<< order
      = freePageSum (al₂.setState i (buddyState r address) (buddyStateAllocated order))
    rw [setState_freePages, freePageSum_setState, Nat.shiftLeft_eq, Nat.one_mul]
    omega

/-! ## `buddy_free` -/

/-- A handed-out block is not also free. -/
theorem Core.out_not_free (h : Core S al out hand) (hb : b ∈ out) : b ∉ freeBlocks al := by
  intro hf
  have hnd := (nodup_append.mp h.tiles.nodup).2.1
  exact (nodup_append.mp hnd).2.2 b hb b hf rfl

/-- One block starts at an address. -/
theorem Core.order_unique (h : Core S al out hand) {l : Nat} (hl : pageBlock a l ∈ hand ++ (out ++ freeBlocks al))
    (hk : pageBlock a k ∈ hand ++ (out ++ freeBlocks al)) : l = k :=
  (pageBlock_inj.mp (h.tiles.eq_of_has hl hk (pageBlock a l).has_base (pageBlock a k).has_base)).2

/-- The first page of a block that is handed out carries its byte. -/
theorem Core.state_allocated (h : Core S al out hand) (hi : al.regions[i]? = some r)
    (hf : Fits r (pageBlock a k)) (hm : pageBlock a k ∈ out) :
    al.states i ((a - r.start) / pgsize) = buddyStateAllocated k := by
  have hx := hf.base_in (h.wf r (mem_of_getElem? hi))
  have hps := h.states i r hi a hx.1 hx.2 hf.page
  have hmem := mem_append_right hand (mem_append_left (freeBlocks al) hm)
  generalize al.states i ((a - r.start) / pgsize) = w at hps
  cases hps with
  | free hl =>
    rw [h.order_unique (mem_append_right _ (mem_append_right _ hl)) hmem] at hl
    exact absurd hl (h.out_not_free hm)
  | allocated hl => rw [h.order_unique (mem_append_right _ (mem_append_left _ hl)) hmem]
  | unused _ ho => exact absurd hm (ho k)

/-- **`buddy_allocated` answers exactly for the blocks handed out.** -/
theorem buddyAllocated_iff (h : Core S al out []) : buddyAllocated al a k = true ↔ pageBlock a k ∈ out := by
  constructor
  · intro hal
    unfold buddyAllocated at hal
    split at hal
    · exact absurd hal (by simp)
    rename_i hn
    simp only [Bool.or_eq_true, decide_eq_true_eq, not_or, not_lt, ne_eq, not_not] at hn
    obtain ⟨hk, hpage⟩ := hn
    rcases hfind : buddyFindRegion al a with _ | i
    · simp [hfind] at hal
    obtain ⟨r, hi, hx⟩ := buddyFindRegion_some hfind
    have hp : pgsize ∣ a := dvd_of_mod_eq_zero hpage
    have hst := buddyState_eq (h.wf r (mem_of_getElem? hi)) hx hp
    simp only [hfind, hi, hst] at hal
    split at hal
    · exact absurd hal (by simp)
    have hbyte : al.states i ((a - r.start) / pgsize) = buddyStateAllocated k := eq_of_beq hal
    have hps := h.states i r hi a hx.1 hx.2 hp
    generalize al.states i ((a - r.start) / pgsize) = w at hps hbyte
    cases hps with
    | @free l hm =>
      have hl := (pageBlock_mem_freeBlocks.mp hm).1
      exact absurd hbyte (buddyStateFree_ne_allocated l hl k hk)
    | @allocated l hm =>
      obtain ⟨s, _, hfs⟩ := h.fits _ (mem_append_right _ (mem_append_left _ hm))
      have hl := hfs.order_le
      rw [buddyStateAllocated_inj l hl k hk hbyte] at hm
      exact hm
    | unused => exact absurd hbyte.symm (buddyStateAllocated_ne_unused k hk)
  · intro hm
    obtain ⟨i, r, hi, hf, hfind⟩ := h.region_of (mem_append_right _ (mem_append_left _ hm))
    have hwf := h.wf r (mem_of_getElem? hi)
    have hk := hf.order_le
    have hp : pgsize ∣ a := hf.page
    have hx := hf.base_in hwf
    rw [pageBlock_base] at hfind hx
    have hst := buddyState_eq hwf hx hp
    unfold buddyAllocated
    rw [if_neg]
    · simp only [hfind, hi, hst, buddyBlockFits_iff.mpr hf, Bool.not_true, Bool.false_eq_true, if_false,
        h.state_allocated hi hf hm]
      exact beq_self_eq_true _
    · simp only [Bool.or_eq_true, decide_eq_true_eq, not_or, not_lt, ne_eq, not_not]
      exact ⟨hk, mod_eq_zero_of_dvd hp⟩

/-- A region's page carries the byte of a free block exactly when that block is free. -/
theorem Core.state_free_iff (h : Core S al out hand) (hi : al.regions[i]? = some r)
    (hf : Fits r (pageBlock a k)) :
    al.states i ((a - r.start) / pgsize) = buddyStateFree k ↔ pageBlock a k ∈ freeBlocks al := by
  have hk := hf.order_le
  have hx := hf.base_in (h.wf r (mem_of_getElem? hi))
  have hps := h.states i r hi a hx.1 hx.2 hf.page
  generalize al.states i ((a - r.start) / pgsize) = w at hps
  cases hps with
  | @free l hm =>
    have hl := (pageBlock_mem_freeBlocks.mp hm).1
    constructor
    · intro he
      rw [← buddyStateFree_inj l hl k hk he]
      exact hm
    · intro hm'
      rw [h.order_unique (mem_append_right _ (mem_append_right _ hm)) (mem_append_right _ (mem_append_right _ hm'))]
  | @allocated l hm =>
    obtain ⟨s, _, hfs⟩ := h.fits _ (mem_append_right _ (mem_append_left _ hm))
    have hl := hfs.order_le
    constructor
    · intro he
      exact absurd he.symm (buddyStateFree_ne_allocated k hk l hl)
    · intro hm'
      rw [← h.order_unique (mem_append_right _ (mem_append_left _ hm)) (mem_append_right _ (mem_append_right _ hm'))]
        at hm'
      exact absurd hm' (h.out_not_free hm)
  | unused hfr =>
    constructor
    · intro he
      exact absurd he.symm (buddyStateFree_ne_unused k hk)
    · intro hm'
      exact absurd hm' (hfr k)

/-- The merging loop ends with a block in hand whose buddy is not a free block of the region. -/
theorem buddyMerge_spec :
    ∀ (fuel : Nat) (al : BuddyAllocator) (a k : Nat), k + fuel = buddyMaxOrder →
      al.regions[i]? = some r → Core S al out [pageBlock a k] → Fits r (pageBlock a k) →
      ∃ al' a' k', buddyMerge i r fuel al a k = (al', a', k') ∧
        Core S al' out [pageBlock a' k'] ∧ Fits r (pageBlock a' k') ∧
        (k' < buddyMaxOrder → BlockIn r (pageBlock a' k').buddy →
          (pageBlock a' k').buddy ∉ freeBlocks al') ∧
        al'.regions = al.regions ∧ al'.freePages = al.freePages ∧
        freePageSum al' + 2 ^ k' = freePageSum al + 2 ^ k := by
  intro fuel
  induction fuel with
  | zero =>
    intro al a k hk hi hcore hf
    exact ⟨al, a, k, rfl, hcore, hf, fun hlt => absurd hlt (by omega), rfl, rfl, rfl⟩
  | succ fuel ih =>
    intro al a k hk hi hcore hf
    have hwf := hcore.wf r (mem_of_getElem? hi)
    unfold buddyMerge
    by_cases hfit : buddyBlockFits r (a ^^^ buddyOrderSize k) k = true
    · have hfb := buddyBlockFits_iff.mp hfit
      have hst := buddyState_eq hwf (hfb.base_in hwf) hfb.page
      rw [pageBlock_base] at hst
      have hiff := hcore.state_free_iff hi hfb
      by_cases hbyte : al.states i (((a ^^^ buddyOrderSize k) - r.start) / pgsize) = buddyStateFree k
      · -- the buddy is free: join it to the block in hand and go on one order up
        have hm := hiff.mp hbyte
        simp only [hfit, hst, hbyte, Bool.not_true, Bool.false_eq_true, if_false, bne_self_eq_false]
        have htake := hcore.take hi hm hfb
        rw [hst] at htake
        have hlt : (pageBlock a k).exp < maxExp := Nat.add_lt_add_right (by omega) _
        rw [← pageBlock_buddy] at htake
        have hjoin := htake.join (by rw [setState_regions]; exact mem_of_getElem? hi) hf
          (by rw [pageBlock_buddy]; exact hfb) hlt
        obtain ⟨s, hs, hfs⟩ := hjoin.fits _ (mem_cons_self ..)
        rw [setState_regions] at hs
        have hpin : (pageBlock a k).Within (pageBlock a k).parent := hf.aligned.within_parent
        have hrs := hcore.region_eq (mem_of_getElem? hi) hs hf.inside
          ⟨hfs.inside.1.trans hpin.1, hpin.2.trans hfs.inside.2⟩
        subst hrs
        rw [pageBlock_parent] at hjoin hfs
        obtain ⟨al', a', k', h1, h2, h3, h4, h5, h6, h7⟩ := ih _ _ (k + 1) (by omega)
          (by rw [setState_regions]; exact hi) hjoin hfs
        refine ⟨al', a', k', h1, h2, h3, h4, by rw [h5, setState_regions]; rfl,
          by rw [h6, setState_freePages]; rfl, ?_⟩
        have hsum := freePageSum_listRemove hm
        rw [freePageSum_setState, Nat.pow_succ] at h7
        omega
      · have hne : (al.states i (((a ^^^ buddyOrderSize k) - r.start) / pgsize) != buddyStateFree k)
            = true := bne_iff_ne.mpr hbyte
        simp only [hfit, hst, hne, Bool.not_true, Bool.false_eq_true, if_false, if_true]
        refine ⟨al, a, k, rfl, hcore, hf, fun _ _ => ?_, rfl, rfl, rfl⟩
        rw [pageBlock_buddy]
        exact fun hm => hbyte (hiff.mpr hm)
    · simp only [hfit, Bool.not_false, if_true]
      refine ⟨al, a, k, rfl, hcore, hf, fun _ hin => ?_, rfl, rfl, rfl⟩
      -- a buddy inside the region would fit
      refine absurd (buddyBlockFits_iff.mpr ?_) hfit
      rw [← pageBlock_buddy]
      exact ⟨hf.aligned.buddy, hf.lo_le, hf.le_hi, hin⟩

/-- **`buddy_free` on a block handed out**: the block goes back, merged as far as it can be. -/
theorem buddyFree_of_mem (h : Inv al out) (hm : pageBlock a k ∈ out) :
    ∃ al', buddyFree al a k = (al', 0) ∧ al'.regions = al.regions ∧ Inv al' (out.erase (pageBlock a k)) := by
  have halloc := (buddyAllocated_iff h.core).mpr hm
  obtain ⟨i, r, hi, hf, hfind⟩ := h.core.region_of (mem_append_right _ (mem_append_left _ hm))
  rw [pageBlock_base] at hfind
  have hk := hf.order_le
  have hrel := h.core.release hi hm hf
  obtain ⟨al₁, a₁, k₁, h1, h2, h3, h4, h5, h6, h7⟩ := buddyMerge_spec (buddyMaxOrder - k) _ a k (by omega)
    (by rw [setState_regions]; exact hi) hrel hf
  rw [setState_regions] at h5
  rw [setState_freePages] at h6
  rw [freePageSum_setState] at h7
  have hadd := h2.add (by rw [h5]; exact hi) h3 h4
  have hregs : (buddyListAdd al₁ i r a₁ k₁).regions = al.regions := by rw [buddyListAdd_regions, h5]
  unfold buddyFree
  simp only [halloc, Bool.not_true, Bool.false_eq_true, if_false, hfind, hi, h1]
  refine ⟨_, rfl, hregs, ?_, ?_⟩
  · have hS : allocatable { buddyListAdd al₁ i r a₁ k₁ with
        freePages := (buddyListAdd al₁ i r a₁ k₁).freePages + 1 <<< k } = allocatable al := by
      funext x
      simp only [allocatable, hregs]
    rw [hS]
    exact ⟨hadd.wf, hadd.regions, hadd.fits, hadd.tiles, hadd.states, hadd.counts, hadd.beyond,
      hadd.coalesced⟩
  · have hk₁ := h3.order_le
    have hpages := h.pages
    show (buddyListAdd al₁ i r a₁ k₁).freePages + 1 <<< k = freePageSum (buddyListAdd al₁ i r a₁ k₁)
    rw [buddyListAdd_freePages, freePageSum_listAdd hk₁, Nat.shiftLeft_eq, Nat.one_mul, h6]
    omega

/-- **`buddy_free` on anything else** returns `-1` and changes nothing. -/
theorem buddyFree_of_not_mem (h : Core S al out []) (hm : pageBlock a k ∉ out) :
    buddyFree al a k = (al, -1) := by
  have halloc : buddyAllocated al a k = false := by
    cases hb : buddyAllocated al a k
    · rfl
    · exact absurd ((buddyAllocated_iff h).mp hb) hm
  unfold buddyFree
  simp only [halloc, Bool.not_false, if_true]

/-! ## `buddy_add_region` -/

/-- On a multiple of `2 ^ k`, bit `k` is clear exactly on the multiples of `2 ^ (k + 1)`. -/
theorem bit_clear_iff {p : Nat} (h : 2 ^ k ∣ p) : ((p &&& (1 <<< k)) == 0) = true ↔ 2 ^ (k + 1) ∣ p := by
  obtain ⟨m, rfl⟩ := h
  have hpos := Nat.two_pow_pos k
  rw [beq_iff_eq, Nat.shiftLeft_eq, Nat.one_mul, Nat.and_two_pow, Nat.testBit_eq_decide_div_mod_eq,
    Nat.mul_div_cancel_left _ hpos, Nat.pow_succ, Nat.mul_dvd_mul_iff_left hpos]
  rcases mod_two_eq_zero_or_one m with hm | hm
  · simp [hm, dvd_of_mod_eq_zero hm]
  · have hnd : ¬ 2 ∣ m := fun hd => by have := mod_eq_zero_of_dvd hd; omega
    simp [hm, hnd]

theorem buddyLargestOrderLoop_spec {page : Nat} :
    ∀ (fuel order : Nat), order + fuel = buddyMaxOrder → 2 ^ order ∣ page → 2 ^ order ≤ pages →
      buddyLargestOrderLoop page pages fuel order ≤ buddyMaxOrder ∧
      2 ^ buddyLargestOrderLoop page pages fuel order ∣ page ∧
      2 ^ buddyLargestOrderLoop page pages fuel order ≤ pages ∧
      (buddyLargestOrderLoop page pages fuel order < buddyMaxOrder →
        2 ^ (buddyLargestOrderLoop page pages fuel order + 1) ∣ page →
        pages < 2 ^ (buddyLargestOrderLoop page pages fuel order + 1)) := by
  intro fuel
  induction fuel with
  | zero =>
    intro order hk hd hp
    simp only [buddyLargestOrderLoop]
    exact ⟨by omega, hd, hp, fun hlt => absurd hlt (by omega)⟩
  | succ fuel ih =>
    intro order hk hd hp
    unfold buddyLargestOrderLoop
    split
    · rename_i hc
      simp only [Bool.and_eq_true, decide_eq_true_eq, Nat.shiftLeft_eq, Nat.one_mul] at hc
      have hbit : 2 ^ (order + 1) ∣ page := by
        rw [← bit_clear_iff hd, Nat.shiftLeft_eq, Nat.one_mul]
        exact hc.1.2
      exact ih (order + 1) (by omega) hbit hc.2
    rename_i hc
    refine ⟨by omega, hd, hp, fun hlt hd' => ?_⟩
    by_contra hge
    refine hc ?_
    simp only [Bool.and_eq_true, decide_eq_true_eq]
    exact ⟨⟨hlt, (bit_clear_iff hd).mpr hd'⟩, by rw [Nat.shiftLeft_eq]; omega⟩

/-- `buddy_largest_order` gives the largest order that is aligned and fits, up to the maximum. -/
theorem buddyLargestOrder_spec (hp : 1 ≤ pages) :
    buddyLargestOrder address pages ≤ buddyMaxOrder ∧
    2 ^ buddyLargestOrder address pages ∣ address / pgsize ∧
    2 ^ buddyLargestOrder address pages ≤ pages ∧
    (buddyLargestOrder address pages < buddyMaxOrder →
      2 ^ (buddyLargestOrder address pages + 1) ∣ address / pgsize →
      pages < 2 ^ (buddyLargestOrder address pages + 1)) :=
  buddyLargestOrderLoop_spec buddyMaxOrder 0 (zero_add _) (by simp) hp

/-- Fresh addresses of a region join the tiled set as a block in hand. -/
theorem Core.grow (h : Core S al out hand) (hr : r ∈ al.regions) (hf : Fits r b)
    (hfresh : ∀ x, b.Has x → x ∉ S) : Core (fun x => x ∈ S ∨ b.Has x) al out (b :: hand) := by
  refine { h with fits := ?_, tiles := ⟨?_, fun x => ?_⟩ }
  · intro c hc
    rcases mem_cons.mp hc with rfl | hc
    · exact ⟨r, hr, hf⟩
    · exact h.fits c hc
  · refine pairwise_cons.mpr ⟨fun c hc => ?_, h.tiles.apart⟩
    by_contra hn
    obtain ⟨x, hbx, hcx⟩ := Block.not_apart_iff.mp hn
    exact hfresh x hbx ((h.tiles.cover x).mpr ⟨c, hc, hcx⟩)
  · show x ∈ S ∨ b.Has x ↔ _
    rw [h.tiles.cover x]
    simp only [cons_append, mem_cons, exists_eq_or_imp]
    exact or_comm

/-- A block the carving loop cut has no room for its parent above it. -/
def CutMaximal (al : BuddyAllocator) (r : BuddyRegion) : Prop :=
  ∀ b ∈ freeBlocks al, BlockIn r b → b.exp < maxExp → 2 ^ (b.exp + 1) ∣ b.base →
    r.finish < b.base + 2 ^ (b.exp + 1)

/-- The addresses tiled when the carving loop has reached `address`. -/
def carved (S : Set Nat) (r : BuddyRegion) (address : Nat) : Set Nat :=
  fun x => x ∈ S ∨ (r.allocatableStart ≤ x ∧ x < address)

/-- The block cut at `address` fits, and is as large as alignment and the region's end allow. -/
theorem cut_fits (hwf : RegionWf r) (hlo : r.allocatableStart ≤ address) (hlt : address < r.finish)
    (hp : pgsize ∣ address) :
    let after := (r.finish - address) / pgsize
    Fits r (pageBlock address (buddyLargestOrder address after)) ∧
    (buddyLargestOrder address after < buddyMaxOrder →
      2 ^ (buddyLargestOrder address after + pgshift + 1) ∣ address →
      r.finish < address + 2 ^ (buddyLargestOrder address after + pgshift + 1)) := by
  dsimp only
  obtain ⟨m, rfl⟩ := hp
  obtain ⟨n, hn⟩ := hwf.finish_page
  have hmn : m < n := by rw [hn] at hlt; exact Nat.lt_of_mul_lt_mul_left hlt
  have hpages : (r.finish - pgsize * m) / pgsize = n - m := by
    rw [hn, ← Nat.mul_sub, Nat.mul_div_cancel_left _ pgsize_pos]
  rw [hpages]
  obtain ⟨h1, h2, h3, h4⟩ := buddyLargestOrder_spec (Nat.sub_pos_of_lt hmn)
  rw [Nat.mul_div_cancel_left _ pgsize_pos] at h2 h4
  generalize buddyLargestOrder (pgsize * m) (n - m) = k at h1 h2 h3 h4
  have hpow : ∀ l, 2 ^ (l + pgshift) = pgsize * 2 ^ l := fun l => by
    rw [pow_add, ← pgsize_eq, mul_comm]
  refine ⟨⟨?_, Nat.le_add_left _ _, Nat.add_le_add_right h1 _, hlo, ?_⟩, fun hk hd => ?_⟩
  · show 2 ^ (k + pgshift) ∣ pgsize * m
    rw [hpow]
    exact mul_dvd_mul_left _ h2
  · show pgsize * m + 2 ^ (k + pgshift) ≤ r.finish
    rw [hpow, hn, ← Nat.mul_add]
    exact mul_le_mul_left _ (by omega)
  · rw [add_right_comm, hpow] at hd ⊢
    have hlt' := h4 hk ((Nat.mul_dvd_mul_iff_left pgsize_pos).mp hd)
    rw [hn, ← Nat.mul_add]
    exact Nat.mul_lt_mul_of_pos_left (by omega) pgsize_pos

/-- The buddy of the block cut at `address` is not among the blocks cut so far: above it nothing is cut
    yet, and a lower buddy of this size would have been cut twice as large. -/
theorem cut_buddy_not_free (h : Core (carved S r address) al out hand) (hwf : RegionWf r)
    (hS : ∀ x, r.start ≤ x → x < r.finish → x ∉ S) (hcut : CutMaximal al r) (hf : Fits r b)
    (hb : b.base = address) (hlt : b.exp < maxExp) (hin : BlockIn r b.buddy) : b.buddy ∉ freeBlocks al := by
  intro hm
  have hstart := hwf.start_le
  have hfin := hf.inside.2
  have h1 := hin.1
  have h2 : b.buddy.base + 2 ^ b.exp ≤ r.finish := hin.2
  rcases hf.aligned.buddy_cases with ⟨he, _⟩ | ⟨he, hd⟩
  · rcases h.mem_free_has hm b.buddy.has_base with hx | hx
    · exact hS b.buddy.base (by omega) (by omega) hx
    · have := hx.2
      omega
  have hmax := hcut b.buddy hm hin hlt hd
  have hexp : 2 ^ (b.buddy.exp + 1) = 2 ^ b.exp + 2 ^ b.exp := by
    show 2 ^ (b.exp + 1) = _
    rw [Nat.pow_succ]
    omega
  omega

/-- **The carving loop** cuts the rest of the region into free blocks. -/
theorem buddyCarve_spec (hwf : RegionWf r) (hS : ∀ x, r.start ≤ x → x < r.finish → x ∉ S) :
    ∀ (fuel : Nat) (al : BuddyAllocator) (address : Nat), al.regions[i]? = some r →
      (r.finish - address) / pgsize ≤ fuel → r.allocatableStart ≤ address → address ≤ r.finish →
      pgsize ∣ address → Core (carved S r address) al out [] → CutMaximal al r →
      al.freePages = freePageSum al →
    let after := buddyCarve i r fuel al address
    Core (carved S r r.finish) after out [] ∧ after.regions = al.regions ∧ after.freePages = freePageSum after := by
  -- a page-aligned address with no page left before the end is the end
  have hdone : ∀ address, address ≤ r.finish → pgsize ∣ address → (r.finish - address) / pgsize = 0 →
      address = r.finish := by
    intro address hle hp h0
    have := Nat.div_mul_cancel (Nat.dvd_sub hwf.finish_page hp)
    rw [h0] at this
    omega
  intro fuel
  induction fuel with
  | zero =>
    intro al address _ hfuel _ hle hp hcore _ hpages
    have he := hdone address hle hp (le_zero.mp hfuel)
    subst he
    exact ⟨hcore, rfl, hpages⟩
  | succ fuel ih =>
    intro al address hi hfuel hlo hle hp hcore hcut hpages
    unfold buddyCarve
    split_ifs with hlt
    · simp only
      have hstart := hwf.start_le
      obtain ⟨hf, hroom⟩ := cut_fits hwf hlo hlt hp
      generalize buddyLargestOrder address ((r.finish - address) / pgsize) = k at hf hroom ⊢
      have hk := hf.order_le
      have hsize := buddyOrderSize_eq k
      have hend : address + 2 ^ (k + pgshift) ≤ r.finish := hf.inside.2
      have hr := mem_of_getElem? hi
      -- the block's addresses are new
      have hfresh : ∀ x, (pageBlock address k).Has x → x ∉ carved S r address := by
        rintro x ⟨hx1, hx2⟩ hx
        simp only [pageBlock_base, pageBlock_exp] at hx1 hx2
        rcases hx with hx | hx
        · exact hS x (by omega) (by omega) hx
        · omega
      have hnb := fun hl hin => cut_buddy_not_free hcore hwf hS hcut hf rfl hl hin
      have hadd := (hcore.grow hr hf hfresh).add hi hf
        (fun hl hin => hnb (Nat.add_lt_add_right hl _) hin)
      have hset : (fun x => x ∈ carved S r address ∨ (pageBlock address k).Has x)
          = carved S r (address + buddyOrderSize k) := by
        funext x
        simp only [Block.Has, pageBlock_base, pageBlock_exp, hsize, eq_iff_iff]
        show ((x ∈ S ∨ _) ∨ _) ↔ (x ∈ S ∨ _)
        rw [or_assoc]
        refine or_congr Iff.rfl ?_
        omega
      rw [hset] at hadd
      have hcut' : CutMaximal (buddyListAdd al i r address k) r := by
        intro b hb hin hl hd
        have hperm : (freeBlocks (buddyListAdd al i r address k)).Perm
            (pageBlock address k :: freeBlocks al) := by
          rw [buddyListAdd, freeBlocks_setState]
          exact freeBlocks_push hk
        rcases mem_cons.mp (hperm.mem_iff.mp hb) with rfl | hb
        · exact hroom (Nat.lt_of_add_lt_add_right hl) hd
        · exact hcut b hb hin hl hd
      have hleft : (r.finish - (address + buddyOrderSize k)) / pgsize ≤ fuel := by
        have hsz : buddyOrderSize k = pgsize * 2 ^ k := by rw [buddyOrderSize, Nat.shiftLeft_eq]
        have hsplit : r.finish - address = r.finish - (address + buddyOrderSize k) + pgsize * 2 ^ k := by
          omega
        rw [hsplit, add_mul_div_left _ _ pgsize_pos] at hfuel
        have := Nat.two_pow_pos k
        omega
      obtain ⟨h1, h2, h3⟩ := ih { buddyListAdd al i r address k with
          freePages := (buddyListAdd al i r address k).freePages + 1 <<< k }
        (address + buddyOrderSize k)
        (by rw [buddyListAdd_regions]; exact hi) hleft (by omega) (by omega)
        (Nat.dvd_add hp (by rw [hsize]; exact pgsize_dvd_size k))
        ⟨hadd.wf, hadd.regions, hadd.fits, hadd.tiles, hadd.states, hadd.counts, hadd.beyond,
          hadd.coalesced⟩ hcut'
        (by
          show (buddyListAdd al i r address k).freePages + 1 <<< k
            = freePageSum (buddyListAdd al i r address k)
          rw [buddyListAdd_freePages, freePageSum_listAdd hk, Nat.shiftLeft_eq, Nat.one_mul, hpages]
          omega)
      refine ⟨h1, ?_, h3⟩
      rw [h2]
      exact buddyListAdd_regions ..
    · have he : address = r.finish := by omega
      subst he
      exact ⟨hcore, rfl, hpages⟩

/-- What the checks of `buddy_add_region` establish. -/
theorem buddyAddRegion_cases {args : RegionArgs} :
    buddyAddRegion al args = (al, -1) ∨
    (RegionWf args.region ∧ (∀ s ∈ al.regions, RegionsApart s args.region) ∧
      buddyAddRegion al args =
        (buddyCarve al.regions.length args.region
          ((args.region.finish - args.region.allocatableStart) / pgsize)
          { al with
            regions := al.regions ++ [args.region]
            states := Function.update al.states al.regions.length fun _ => buddyStateUnused }
          args.region.allocatableStart, 0)) := by
  unfold buddyAddRegion
  split
  · exact .inl rfl
  rename_i hc
  split
  · exact .inl rfl
  rename_i hov
  right
  simp only [Bool.or_eq_true, decide_eq_true_eq, not_or, not_lt, not_le, ne_eq, not_not,
    Bool.not_eq_true', Bool.not_eq_false] at hc
  obtain ⟨⟨⟨⟨⟨⟨⟨⟨_, h1⟩, h2⟩, h3⟩, h4⟩, h5⟩, h6⟩, h7⟩, _⟩ := hc
  refine ⟨⟨h1, dvd_of_mod_eq_zero h2, dvd_of_mod_eq_zero h3, h4, h5,
    dvd_of_mod_eq_zero h6, h7, args.allocatable_pos⟩, ?_, rfl⟩
  intro s hs
  rw [Bool.not_eq_true, any_eq_false] at hov
  have := hov s hs
  simp only [Bool.and_eq_true, decide_eq_true_eq, not_and, not_lt] at this
  by_cases hlt : args.start < s.finish
  · exact .inr (this hlt)
  · exact .inl (Nat.le_of_not_lt hlt)

/-- A region apart from all others holds none of their blocks. -/
theorem Core.not_blockIn_new (h : Core S al out hand) (hap : ∀ s ∈ al.regions, RegionsApart s r)
    (hb : b ∈ hand ++ (out ++ freeBlocks al)) (hx : b.Has x) :
    ¬ (r.start ≤ x ∧ x < r.finish) := by
  rintro ⟨hx1, hx2⟩
  obtain ⟨s, hs, hf⟩ := h.fits b hb
  have h1 := (h.wf s hs).start_le
  have h2 := hf.inside.1
  have h3 := hf.inside.2
  obtain ⟨h4, h5⟩ := hx
  rcases hap s hs with h7 | h7 <;> omega

/-- Appending an empty region keeps the invariant. -/
theorem Core.addRegion (h : Core S al out []) (hwf : RegionWf r)
    (hap : ∀ s ∈ al.regions, RegionsApart s r) :
    Core S { al with
      regions := al.regions ++ [r]
      states := Function.update al.states al.regions.length fun _ => buddyStateUnused } out [] := by
  have hnew : ∀ b ∈ out ++ freeBlocks al, ¬ BlockIn r b := by
    intro b hb hin
    have hpos := Nat.two_pow_pos b.exp
    have h1 := hwf.start_le
    obtain ⟨h2, h3⟩ := hin
    exact h.not_blockIn_new hap (mem_append_right _ hb) b.has_base ⟨by omega, by omega⟩
  refine ⟨?_, ?_, ?_, h.tiles, ?_, h.counts, h.beyond, ?_⟩
  · intro s hs
    rcases mem_append.mp hs with hs | hs
    · exact h.wf s hs
    · rw [mem_singleton.mp hs]
      exact hwf
  · refine pairwise_append.mpr ⟨h.regions, pairwise_singleton .., ?_⟩
    intro s hs t ht
    rw [mem_singleton.mp ht]
    exact hap s hs
  · intro b hb
    obtain ⟨s, hs, hf⟩ := h.fits b hb
    exact ⟨s, mem_append_left _ hs, hf⟩
  · intro j s hj x hx1 hx2 hp
    simp only at hj ⊢
    by_cases hlt : j < al.regions.length
    · rw [List.getElem?_append_left hlt] at hj
      rw [Function.update_of_ne (Nat.ne_of_lt hlt)]
      exact h.states j s hj x hx1 hx2 hp
    -- the new region: all its bytes are unused, and no block starts in it
    rw [List.getElem?_append_right (Nat.le_of_not_lt hlt)] at hj
    have hj0 : j - al.regions.length = 0 := by
      by_contra hne
      rw [List.getElem?_eq_none (by simp only [length_singleton]; omega)] at hj
      exact absurd hj (by simp)
    have hjl : j = al.regions.length := by omega
    subst hjl
    rw [hj0] at hj
    have hsr : r = s := Option.some.inj hj
    subst hsr
    rw [Function.update_self]
    have hno : ∀ l, pageBlock x l ∉ out ++ freeBlocks al := fun l hl =>
      h.not_blockIn_new hap (mem_append_right _ hl) (pageBlock x l).has_base ⟨hx1, hx2⟩
    exact .unused (fun l hl => hno l (mem_append_right _ hl))
      (fun l hl => hno l (mem_append_left _ hl))
  · intro s hs
    rcases mem_append.mp hs with hs | hs
    · exact h.coalesced s hs
    · rw [mem_singleton.mp hs]
      intro b hb _ _ hin
      exact absurd hin (hnew b (mem_append_right _ hb))

/-- **`buddy_add_region`.** A refused region changes nothing; an accepted one is appended, and all its
    allocatable pages are free. -/
theorem buddyAddRegion_spec (h : Inv al out) (args : RegionArgs) :
    buddyAddRegion al args = (al, -1) ∨
    ∃ al', buddyAddRegion al args = (al', 0) ∧ al'.regions = al.regions ++ [args.region] ∧ Inv al' out := by
  rcases buddyAddRegion_cases with hneg | ⟨hwf, hap, heq⟩
  · exact .inl hneg
  right
  rw [heq]
  generalize args.region = r at hwf hap
  have hadd := h.core.addRegion hwf hap
  -- no address of the new region is tiled yet, so none of its blocks is cut
  have hS : ∀ x, r.start ≤ x → x < r.finish → x ∉ allocatable al := by
    intro x hx1 hx2 hx
    obtain ⟨b, hb, hbx⟩ := (h.core.tiles.cover x).mp hx
    exact h.core.not_blockIn_new hap hb hbx ⟨hx1, hx2⟩
  have hstart := hwf.start_le
  have hcut : CutMaximal al r := by
    intro b hb hin
    have hpos := Nat.two_pow_pos b.exp
    obtain ⟨h2, h3⟩ := hin
    exact absurd ⟨by omega, by omega⟩ (h.core.not_blockIn_new hap
      (mem_append_right _ (mem_append_right _ hb)) b.has_base)
  have hempty : carved (allocatable al) r r.allocatableStart = allocatable al := by
    funext x
    simp only [eq_iff_iff]
    constructor
    · rintro (hx | ⟨h1, h2⟩)
      · exact hx
      · omega
    · exact .inl
  obtain ⟨h1, h2, h3⟩ := buddyCarve_spec hwf hS _
    { al with
      regions := al.regions ++ [r]
      states := Function.update al.states al.regions.length fun _ => buddyStateUnused } _
    (List.getElem?_concat_length ..) (le_refl _) (le_refl _) hwf.le_finish hwf.allocatable_page
    (by rw [hempty]; exact hadd) hcut h.pages
  refine ⟨_, rfl, h2, ?_, h3⟩
  have hall : allocatable (buddyCarve al.regions.length r ((r.finish - r.allocatableStart) / pgsize)
      { al with
        regions := al.regions ++ [r]
        states := Function.update al.states al.regions.length fun _ => buddyStateUnused }
      r.allocatableStart) = carved (allocatable al) r r.finish := by
    funext x
    simp only [allocatable, h2, mem_append, mem_singleton, eq_iff_iff]
    constructor
    · rintro ⟨s, hs | rfl, hx⟩
      · exact .inl ⟨s, hs, hx⟩
      · exact .inr hx
    · rintro (⟨s, hs, hx⟩ | hx)
      · exact ⟨s, .inl hs, hx⟩
      · exact ⟨r, .inr rfl, hx⟩
  rw [hall]
  exact h1

end Caffeinix.Buddy
