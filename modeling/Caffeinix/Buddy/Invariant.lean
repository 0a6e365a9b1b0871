import Caffeinix.Buddy.Blocks

/-!
# `Buddy.Invariant` — what holds between the elementary steps of the allocator

The loops of `buddy_alloc`, `buddy_free` and `buddy_add_region` work on a block that is on no free list and
belongs to no caller yet: the block *in hand*. `Core S al out hand` says that the free blocks, the blocks
handed out (`out`) and the blocks in hand tile the addresses `S`, that each page's state byte says what the
page starts, that list counts are exact, and that no two mergeable buddies are both free.

Five moves keep it — put a block on its list (`Core.add`), take one off (`Core.take`), split the block in
hand (`Core.split`), hand it out (`Core.allocate`), take it back (`Core.release`) — and every operation of
the allocator is a chain of them.
-/

namespace Caffeinix.Buddy

open Nat List Tiling Option BuddyAllocator
open Function (update update_of_ne update_self)

/-- One region as `buddy_add_region` accepts it. -/
structure RegionWf (r : BuddyRegion) : Prop where
  start_lt : r.start < r.finish
  start_page : pgsize ∣ r.start
  finish_page : pgsize ∣ r.finish
  start_le : r.start ≤ r.allocatableStart
  le_finish : r.allocatableStart ≤ r.finish
  allocatable_page : pgsize ∣ r.allocatableStart
  states_enough : (r.finish - r.start) / pgsize ≤ r.stateCount
  allocatable_pos : 0 < r.allocatableStart

/-- The two regions share no page. -/
def RegionsApart (r s : BuddyRegion) : Prop := r.finish ≤ s.start ∨ s.finish ≤ r.start

/-- What the state byte of the page at `x` says, for given free and handed-out blocks. -/
inductive PageState (free out : List Block) (x : Nat) : UInt8 → Prop
  | free {order : Nat} (h : pageBlock x order ∈ free) : PageState free out x (buddyStateFree order)
  | allocated {order : Nat} (h : pageBlock x order ∈ out) :
      PageState free out x (buddyStateAllocated order)
  | unused (hf : ∀ order, pageBlock x order ∉ free) (ho : ∀ order, pageBlock x order ∉ out) :
      PageState free out x buddyStateUnused

/-- Every page of every region has the state byte its blocks ask for. -/
def StatesOk (al : BuddyAllocator) (free out : List Block) : Prop :=
  ∀ i r, al.regions[i]? = some r → ∀ x, r.start ≤ x → x < r.finish → pgsize ∣ x →
    PageState free out x (al.states i ((x - r.start) / pgsize))

/-- No free block below the largest order has its buddy free in the same region. -/
def CoalescedIn (al : BuddyAllocator) (r : BuddyRegion) : Prop :=
  ∀ b ∈ freeBlocks al, b.exp < maxExp → b.buddy ∈ freeBlocks al → BlockIn r b → ¬ BlockIn r b.buddy

/-- **The invariant of the loops.** -/
structure Core (S : Set Nat) (al : BuddyAllocator) (out hand : List Block) : Prop where
  wf : ∀ r ∈ al.regions, RegionWf r
  regions : al.regions.Pairwise RegionsApart
  fits : ∀ b ∈ hand ++ (out ++ freeBlocks al), ∃ r ∈ al.regions, Fits r b
  tiles : Tiles S (hand ++ (out ++ freeBlocks al))
  states : StatesOk al (freeBlocks al) out
  counts : ∀ k, (al.areas k).count = (al.areas k).blocks.length
  beyond : ∀ k, buddyMaxOrder < k → (al.areas k).blocks = []
  coalesced : ∀ r ∈ al.regions, CoalescedIn al r

/-! ## Regions -/

variable {al al' : BuddyAllocator} {i x : Nat} {r s : BuddyRegion} {b : Block}

/-- An address lies in one region only. -/
theorem region_unique (h : al.regions.Pairwise RegionsApart) {j : Nat} (hi : al.regions[i]? = some r)
    (hj : al.regions[j]? = some s) (hr : r.start ≤ x ∧ x < r.finish) (hs : s.start ≤ x ∧ x < s.finish) :
    i = j := by
  obtain ⟨hil, rfl⟩ := List.getElem?_eq_some_iff.mp hi
  obtain ⟨hjl, rfl⟩ := List.getElem?_eq_some_iff.mp hj
  rw [pairwise_iff_getElem] at h
  rcases lt_trichotomy i j with hlt | heq | hgt
  · have := h i j hil hjl hlt
    unfold RegionsApart at this
    omega
  · exact heq
  · have := h j i hjl hil hgt
    unfold RegionsApart at this
    omega

/-- `buddy_find_region` finds the region that holds the address. -/
theorem buddyFindRegion_eq (h : al.regions.Pairwise RegionsApart) (hi : al.regions[i]? = some r)
    (hx : r.start ≤ x ∧ x < r.finish) : buddyFindRegion al x = some i := by
  obtain ⟨hil, hget⟩ := List.getElem?_eq_some_iff.mp hi
  unfold buddyFindRegion
  rw [List.findIdx?_eq_some_iff_getElem]
  refine ⟨hil, ?_, ?_⟩
  · rw [hget]
    simp [hx.1, hx.2]
  · intro j hji hp
    simp only [Bool.and_eq_true, decide_eq_true_eq] at hp
    have hjl : j < al.regions.length := lt_trans hji hil
    have hj : al.regions[j]? = some al.regions[j] := getElem?_eq_getElem hjl
    have := region_unique h hj hi hp hx
    omega

theorem buddyFindRegion_some (h : buddyFindRegion al x = some i) :
    ∃ r, al.regions[i]? = some r ∧ r.start ≤ x ∧ x < r.finish := by
  unfold buddyFindRegion at h
  rw [List.findIdx?_eq_some_iff_getElem] at h
  obtain ⟨hil, hp, _⟩ := h
  simp only [Bool.and_eq_true, decide_eq_true_eq] at hp
  exact ⟨al.regions[i], getElem?_eq_getElem hil, hp⟩

theorem Fits.base_in (h : Fits r b) (hwf : RegionWf r) : r.start ≤ b.base ∧ b.base < r.finish := by
  have h1 := h.inside.1
  have h2 := h.inside.2
  have h3 := hwf.start_le
  have h4 := Nat.two_pow_pos b.exp
  omega

theorem Fits.page (h : Fits r b) : pgsize ∣ b.base :=
  (pow_dvd_pow 2 h.lo_le).trans h.aligned

theorem Fits.order_le {a k : Nat} (h : Fits r (pageBlock a k)) : k ≤ buddyMaxOrder :=
  Nat.le_of_add_le_add_right h.le_hi

/-- The state byte of a page of the region exists. -/
theorem buddyState_eq (hwf : RegionWf r) (hx : r.start ≤ x ∧ x < r.finish) (hp : pgsize ∣ x) :
    buddyState r x = some ((x - r.start) / pgsize) := by
  unfold buddyState
  have hlt : (x - r.start) / pgsize < (r.finish - r.start) / pgsize := by
    obtain ⟨m, rfl⟩ := hp
    obtain ⟨n, hn⟩ := hwf.start_page
    obtain ⟨q, hq⟩ := hwf.finish_page
    rw [hn, hq] at hx ⊢
    rw [← Nat.mul_sub, ← Nat.mul_sub, Nat.mul_div_cancel_left _ pgsize_pos,
      Nat.mul_div_cancel_left _ pgsize_pos]
    have h1 := Nat.le_of_mul_le_mul_left hx.1 pgsize_pos
    have h2 := Nat.lt_of_mul_lt_mul_left hx.2
    omega
  have := hwf.states_enough
  rw [if_neg (by omega)]

/-- Two pages of a region with one state byte are one page. -/
theorem page_index_inj (hwf : RegionWf r) {y : Nat} (hx : r.start ≤ x) (hy : r.start ≤ y) (hpx : pgsize ∣ x)
    (hpy : pgsize ∣ y) (h : (x - r.start) / pgsize = (y - r.start) / pgsize) : x = y := by
  have hdx := Nat.div_mul_cancel (Nat.dvd_sub hpx hwf.start_page)
  have hdy := Nat.div_mul_cancel (Nat.dvd_sub hpy hwf.start_page)
  rw [h] at hdx
  omega

/-! ## State bytes -/

/-- The three kinds of state byte are told apart, and the order is read back from the byte. -/
theorem buddyStateFree_inj : ∀ k ≤ buddyMaxOrder, ∀ l ≤ buddyMaxOrder,
    buddyStateFree k = buddyStateFree l → k = l := by decide

theorem buddyStateAllocated_inj : ∀ k ≤ buddyMaxOrder, ∀ l ≤ buddyMaxOrder,
    buddyStateAllocated k = buddyStateAllocated l → k = l := by decide

theorem buddyStateFree_ne_allocated : ∀ k ≤ buddyMaxOrder, ∀ l ≤ buddyMaxOrder,
    buddyStateFree k ≠ buddyStateAllocated l := by decide

theorem buddyStateFree_ne_unused : ∀ k ≤ buddyMaxOrder, buddyStateFree k ≠ buddyStateUnused := by decide

theorem buddyStateAllocated_ne_unused : ∀ k ≤ buddyMaxOrder,
    buddyStateAllocated k ≠ buddyStateUnused := by decide

/-- Storing the byte of page `a` re-establishes `StatesOk` for lists that differ only in blocks that start
    at `a`. -/
theorem StatesOk.set {free out free' out' : List Block} (h : StatesOk al free out)
    (hwf : ∀ r ∈ al.regions, RegionWf r) (hap : al.regions.Pairwise RegionsApart)
    (hi : al.regions[i]? = some r) {a : Nat} (ha : r.start ≤ a ∧ a < r.finish) (hp : pgsize ∣ a) {v : UInt8}
    (hfree : ∀ x, x ≠ a → ∀ k, pageBlock x k ∈ free' ↔ pageBlock x k ∈ free)
    (hout : ∀ x, x ≠ a → ∀ k, pageBlock x k ∈ out' ↔ pageBlock x k ∈ out) (hv : PageState free' out' a v) :
    StatesOk (al.setState i (buddyState r a) v) free' out' := by
  intro j s hj x hsx hxf hpx
  rw [setState_regions] at hj
  have hr : RegionWf r := hwf r (mem_of_getElem? hi)
  rw [buddyState_eq hr ha hp]
  simp only [setState]
  by_cases hxa : x = a
  · subst hxa
    have hji : j = i := region_unique hap hj hi ⟨hsx, hxf⟩ ha
    subst hji
    have hsr : s = r := some.inj (hj.symm.trans hi)
    subst hsr
    rw [update_self, update_self]
    exact hv
  · -- another page: its byte is another one, and no block at `x` came or went
    have hbyte : update al.states i (update (al.states i) ((a - r.start) / pgsize) v) j
        ((x - s.start) / pgsize) = al.states j ((x - s.start) / pgsize) := by
      by_cases hji : j = i
      · subst hji
        have hsr : s = r := some.inj (hj.symm.trans hi)
        subst hsr
        rw [update_self, update_of_ne]
        exact fun he => hxa (page_index_inj hr hsx ha.1 hpx hp he)
      · rw [update_of_ne hji]
    rw [hbyte]
    have hold := h j s hj x hsx hxf hpx
    generalize al.states j ((x - s.start) / pgsize) = w at hold
    cases hold with
    | free hm => exact .free ((hfree x hxa _).mpr hm)
    | allocated hm => exact .allocated ((hout x hxa _).mpr hm)
    | unused hf ho =>
      exact .unused (fun k hk => hf k ((hfree x hxa k).mp hk)) (fun k hk => ho k ((hout x hxa k).mp hk))

/-! ## The five moves -/

variable {S : Set Nat} {al : BuddyAllocator} {out hand : List Block} {i a k : Nat} {r : BuddyRegion}

/-- Allocatable parts of different regions are disjoint. -/
theorem Core.region_eq_of_mem (h : Core S al out hand) (hr : r ∈ al.regions) (hs : s ∈ al.regions)
    (hxr : x ∈ r.allocatable) (hxs : x ∈ s.allocatable) : r = s := by
  obtain ⟨m, hm⟩ := getElem?_of_mem hr
  obtain ⟨n, hn⟩ := getElem?_of_mem hs
  have hmn := region_unique h.regions hm hn ⟨(h.wf r hr).start_le.trans hxr.1, hxr.2⟩
    ⟨(h.wf s hs).start_le.trans hxs.1, hxs.2⟩
  rw [hmn] at hm
  exact some.inj (hm.symm.trans hn)

theorem BlockIn.has (h : BlockIn r b) (hx : b.Has x) : x ∈ r.allocatable :=
  ⟨h.1.trans hx.1, hx.2.trans_le h.2⟩

/-- The region that holds a block is the only one that does. -/
theorem Core.region_eq (h : Core S al out hand) (hr : r ∈ al.regions) (hs : s ∈ al.regions)
    (hbr : BlockIn r b) (hbs : BlockIn s b) : r = s :=
  h.region_eq_of_mem hr hs (hbr.has b.has_base) (hbs.has b.has_base)

/-- Adding a block whose buddy is not free in its region keeps every region coalesced. -/
theorem CoalescedIn.add (hperm : (freeBlocks al').Perm (b :: freeBlocks al)) (h : CoalescedIn al s)
    (hal : b.Aligned) (hb : b.exp < maxExp → BlockIn s b → BlockIn s b.buddy → b.buddy ∉ freeBlocks al) :
    CoalescedIn al' s := by
  intro c hc hlt hcb hin hinb
  rcases mem_cons.mp (hperm.mem_iff.mp hc) with rfl | hc
  · rcases mem_cons.mp (hperm.mem_iff.mp hcb) with he | hcb
    · exact hal.buddy_ne he
    · exact hb hlt hin hinb hcb
  rcases mem_cons.mp (hperm.mem_iff.mp hcb) with he | hcb
  · subst he
    rw [Block.buddy_buddy] at hb
    exact hb hlt hinb hin hc
  · exact h c hc hlt hcb hin hinb

/-- Taking blocks away keeps a region coalesced. -/
theorem CoalescedIn.mono (h : CoalescedIn al s) (hsub : ∀ b ∈ freeBlocks al', b ∈ freeBlocks al) :
    CoalescedIn al' s :=
  fun c hc hlt hcb hin => h c (hsub c hc) hlt (hsub _ hcb) hin

/-- A block moves between the hand, those handed out and the free ones, and its state byte says where it is. -/
theorem Core.change {al₁ : BuddyAllocator} {out' hand' : List Block} {v : UInt8} (h : Core S al out hand)
    (hi : al.regions[i]? = some r) (hf : Fits r (pageBlock a k)) (hregions : al₁.regions = al.regions)
    (hbytes : al₁.states = al.states)
    (hperm : (hand ++ (out ++ freeBlocks al)).Perm (hand' ++ (out' ++ freeBlocks al₁)))
    (hfree : ∀ b, b ≠ pageBlock a k → (b ∈ freeBlocks al₁ ↔ b ∈ freeBlocks al))
    (hout : ∀ b, b ≠ pageBlock a k → (b ∈ out' ↔ b ∈ out)) (hv : PageState (freeBlocks al₁) out' a v)
    (hcounts : ∀ l, (al₁.areas l).count = (al₁.areas l).blocks.length)
    (hbeyond : ∀ l, buddyMaxOrder < l → (al₁.areas l).blocks = []) (hco : ∀ s ∈ al.regions, CoalescedIn al₁ s) :
    Core S (al₁.setState i (buddyState r a) v) out' hand' := by
  have hne : ∀ x, x ≠ a → ∀ l, pageBlock x l ≠ pageBlock a k := fun x hx l he => hx (pageBlock_inj.mp he).1
  have hr : r ∈ al.regions := mem_of_getElem? hi
  have hstates : StatesOk al₁ (freeBlocks al) out := by
    unfold StatesOk
    rw [hregions, hbytes]
    exact h.states
  have hset := hstates.set (hregions ▸ h.wf) (hregions ▸ h.regions) (hregions ▸ hi) (hf.base_in (h.wf r hr)) hf.page
    (fun x hx l => hfree _ (hne x hx l)) (fun x hx l => hout _ (hne x hx l)) hv
  constructor <;> simp only [setState_regions, setState_areas, freeBlocks_setState, CoalescedIn, hregions]
  · exact h.wf
  · exact h.regions
  · exact fun b hb => h.fits b (hperm.mem_iff.mpr hb)
  · exact h.tiles.perm hperm
  · exact hset
  · exact hcounts
  · exact hbeyond
  · exact hco

theorem mem_of_perm_cons {l l' : List Block} {c : Block} (hperm : l.Perm (c :: l')) (hb : b ≠ c) : b ∈ l ↔ b ∈ l' := by
  rw [hperm.mem_iff, mem_cons, or_iff_right hb]

/-- **Put the block in hand on its list** (`buddy_list_add`). -/
theorem Core.add (h : Core S al out (pageBlock a k :: hand)) (hi : al.regions[i]? = some r)
    (hf : Fits r (pageBlock a k))
    (hco : k < buddyMaxOrder → BlockIn r (pageBlock a k).buddy →
      (pageBlock a k).buddy ∉ freeBlocks al) :
    Core S (buddyListAdd al i r a k) out hand := by
  have hk := hf.order_le
  have hfree : (freeBlocks (al.push a k)).Perm (pageBlock a k :: freeBlocks al) := freeBlocks_push hk
  refine h.change hi hf rfl rfl ?_ (fun b hb => mem_of_perm_cons hfree hb) (fun _ _ => .rfl)
    (.free (hfree.mem_iff.mpr (mem_cons_self ..))) (fun l => ?_) (fun l hl => ?_) fun s hs => ?_
  · refine .trans ?_ ((hfree.append_left out).append_left hand).symm
    exact perm_middle.symm.trans (perm_middle.symm.append_left hand)
  · by_cases hl : l = k
    · subst hl
      simp only [push, update_self, length_cons, h.counts]
    · simp only [push, update_of_ne hl, h.counts]
  · have hlk : l ≠ k := by omega
    simp only [push, update_of_ne hlk]
    exact h.beyond l hl
  · refine (h.coalesced s hs).add hfree hf.aligned fun hlt hin hinb => ?_
    have hsr := h.region_eq (mem_of_getElem? hi) hs hf.inside hin
    subst hsr
    exact hco (Nat.lt_of_add_lt_add_right hlt) hinb

/-- The block in hand begins where no other block begins. -/
theorem PageState.of_tiles (h : Tiles S (pageBlock a k :: hand ++ (out ++ freeBlocks al))) :
    PageState (freeBlocks al) out a buddyStateUnused := by
  refine .unused (fun l hl => ?_) (fun l hl => ?_)
  · exact h.base_ne_head (mem_append_right _ (mem_append_right _ hl)) rfl
  · exact h.base_ne_head (mem_append_right _ (mem_append_left _ hl)) rfl

/-- **Take a free block in hand** (`buddy_list_remove`, and its state byte becomes unused). -/
theorem Core.take (h : Core S al out hand) (hi : al.regions[i]? = some r)
    (hm : pageBlock a k ∈ freeBlocks al) (hf : Fits r (pageBlock a k)) :
    Core S ((buddyListRemove al a k).setState i (buddyState r a) buddyStateUnused) out
      (pageBlock a k :: hand) := by
  obtain ⟨hk, ha⟩ := pageBlock_mem_freeBlocks.mp hm
  have hfree := freeBlocks_remove hk ha
  have hperm : (hand ++ (out ++ freeBlocks al)).Perm
      (pageBlock a k :: hand ++ (out ++ freeBlocks (buddyListRemove al a k))) := by
    refine ((hfree.append_left out).append_left hand).trans ?_
    exact (perm_middle.append_left hand).trans perm_middle
  refine h.change hi hf rfl rfl hperm (fun b hb => (mem_of_perm_cons hfree hb).symm) (fun _ _ => .rfl)
    (.of_tiles (h.tiles.perm hperm)) (fun l => ?_) (fun l hl => ?_)
    fun s hs => (h.coalesced s hs).mono fun b hb => hfree.mem_iff.mpr (mem_cons_of_mem _ hb)
  · by_cases hl : l = k
    · subst hl
      simp only [buddyListRemove, update_self, h.counts, length_erase_of_mem ha]
    · simp only [buddyListRemove, update_of_ne hl, h.counts]
  · have hlk : l ≠ k := by omega
    simp only [buddyListRemove, update_of_ne hlk]
    exact h.beyond l hl

/-- **Split the block in hand** into its two halves. -/
theorem Core.split (h : Core S al out (pageBlock a (k + 1) :: hand)) :
    Core S al out (pageBlock (a + buddyOrderSize k) k :: pageBlock a k :: hand) := by
  have htiles := (Tiles.split (b := pageBlock a (k + 1)) (succ_pos _)).mp h.tiles
  rw [pageBlock_lower, pageBlock_upper] at htiles
  refine { h with tiles := htiles.perm (List.Perm.swap ..), fits := ?_ }
  intro b hb
  obtain ⟨s, hs, hfs⟩ := h.fits _ (mem_cons_self ..)
  have hle := hfs.le_hi
  have hal := hfs.aligned
  have hin := hfs.inside
  -- a half of a block that fits fits
  have hhalf : ∀ c : Block, c.Aligned → c.exp = k + pgshift → c.Within (pageBlock a (k + 1)) →
      ∃ s ∈ al.regions, Fits s c := by
    intro c hc he hw
    refine ⟨s, hs, hc, ?_, ?_, hin.1.trans hw.1, hw.2.trans hin.2⟩
    · rw [he]; exact le_add_left _ _
    · rw [he]; simp only [pageBlock_exp] at hle; omega
  rcases mem_cons.mp hb with rfl | hb
  · rw [← pageBlock_upper]
    exact hhalf _ hal.upper (by rw [pageBlock_upper]; rfl) (Block.upper_within (succ_pos _))
  · rcases mem_cons.mp hb with rfl | hb
    · rw [← pageBlock_lower]
      exact hhalf _ hal.lower (by rw [pageBlock_lower]; rfl) (Block.lower_within (succ_pos _))
    · exact h.fits b (mem_cons_of_mem _ hb)

/-- **Join the block in hand with its buddy**, when both lie in one region. -/
theorem Core.join (h : Core S al out (b.buddy :: b :: hand)) (hr : r ∈ al.regions) (hb : Fits r b)
    (hbb : Fits r b.buddy) (hlt : b.exp < maxExp) : Core S al out (b.parent :: hand) := by
  have htiles : Tiles S (b.parent :: (hand ++ (out ++ freeBlocks al))) := by
    rw [Tiles.split (succ_pos _)]
    rcases hb.aligned.parent_halves with ⟨hl, hu⟩ | ⟨hl, hu⟩
    · rw [hl, hu]
      exact h.tiles.perm (.swap ..)
    · rw [hl, hu]
      exact h.tiles
  refine { h with tiles := htiles, fits := ?_ }
  intro c hc
  rcases mem_cons.mp hc with rfl | hc
  · refine ⟨r, hr, hb.aligned.parent, ?_, hlt, ?_, ?_⟩
    · exact hb.lo_le.trans (Nat.le_succ _)
    · exact Nat.le_min.mpr ⟨hb.inside.1, hbb.inside.1⟩
    · -- the parent ends where the upper of the two ends
      have h1 := hb.inside.2
      have h2 : b.buddy.base + 2 ^ b.exp ≤ r.finish := hbb.inside.2
      show min b.base b.buddy.base + 2 ^ (b.exp + 1) ≤ r.finish
      rcases hb.aligned.buddy_cases with ⟨he, _⟩ | ⟨he, _⟩ <;> omega
  · exact h.fits c (mem_cons_of_mem _ (mem_cons_of_mem _ hc))

/-- **Hand the block out**: its state byte says so. -/
theorem Core.allocate (h : Core S al out (pageBlock a k :: hand)) (hi : al.regions[i]? = some r)
    (hf : Fits r (pageBlock a k)) :
    Core S (al.setState i (buddyState r a) (buddyStateAllocated k)) (pageBlock a k :: out) hand :=
  h.change hi hf rfl rfl perm_middle.symm (fun _ _ => .rfl) (fun _ hb => mem_of_perm_cons (.refl _) hb)
    (.allocated (mem_cons_self ..)) h.counts h.beyond h.coalesced

/-- **Take a handed-out block back in hand**: its state byte becomes unused. -/
theorem Core.release (h : Core S al out hand) (hi : al.regions[i]? = some r)
    (hm : pageBlock a k ∈ out) (hf : Fits r (pageBlock a k)) :
    Core S (al.setState i (buddyState r a) buddyStateUnused) (out.erase (pageBlock a k))
      (pageBlock a k :: hand) := by
  have hout := perm_cons_erase hm
  have hperm : (hand ++ (out ++ freeBlocks al)).Perm
      (pageBlock a k :: hand ++ (out.erase (pageBlock a k) ++ freeBlocks al)) :=
    ((hout.append_right _).append_left hand).trans perm_middle
  exact h.change hi hf rfl rfl hperm (fun _ _ => .rfl) (fun b hb => (mem_of_perm_cons hout hb).symm)
    (.of_tiles (h.tiles.perm hperm)) h.counts h.beyond h.coalesced

end Caffeinix.Buddy
