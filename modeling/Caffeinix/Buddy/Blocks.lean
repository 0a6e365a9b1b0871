import Mathlib.Data.List.Basic
import Caffeinix.Buddy.Allocator
import Caffeinix.Lib.Tiling

/-!
# `Buddy.Blocks` — the allocator's blocks as dyadic blocks

A block of `order` at `address` is the dyadic block of exponent `order + PGSHIFT`, so the geometry of
`Lib.Tiling` applies to byte addresses as they stand: `buddy_block_fits` is alignment plus containment,
`address ^ size` is `Block.buddy`, and the two halves of a split are `Block.lower` and `Block.upper`.
The free lists together are one list of blocks, up to order (`freeBlocks`).
-/

namespace Caffeinix.Buddy

open Nat Function List Tiling

/-- The block of `2 ^ order` pages at `address`. -/
def pageBlock (address order : Nat) : Block := ⟨address, order + pgshift⟩

/-- The number of pages of a block. -/
def blockPages (b : Block) : Nat := 2 ^ (b.exp - pgshift)

/-- The largest exponent of a block. -/
def maxExp : Nat := buddyMaxOrder + pgshift

/-- The blocks on the free lists. -/
def freeBlocks (al : BuddyAllocator) : List Block :=
  (List.range (buddyMaxOrder + 1)).flatMap fun order => (al.areas order).blocks.map (pageBlock · order)

/-- The number of pages on the free lists. -/
def freePageSum (al : BuddyAllocator) : Nat := ((freeBlocks al).map blockPages).sum

/-- The addresses a region lets the allocator hand out. -/
def BuddyRegion.allocatable (r : BuddyRegion) : Set Nat :=
  fun x => r.allocatableStart ≤ x ∧ x < r.finish

/-- The addresses all regions together let the allocator hand out. -/
def allocatable (al : BuddyAllocator) : Set Nat := fun x => ∃ r ∈ al.regions, x ∈ r.allocatable

/-- The block lies in the allocatable part of the region. -/
def BlockIn (r : BuddyRegion) (b : Block) : Prop :=
  r.allocatableStart ≤ b.base ∧ b.base + 2 ^ b.exp ≤ r.finish

/-- The block is one the region can hold. -/
structure Fits (r : BuddyRegion) (b : Block) : Prop where
  aligned : b.Aligned
  lo_le : pgshift ≤ b.exp
  le_hi : b.exp ≤ maxExp
  inside : BlockIn r b

variable (a k : Nat)

@[simp] theorem pageBlock_base : (pageBlock a k).base = a := rfl

@[simp] theorem pageBlock_exp : (pageBlock a k).exp = k + pgshift := rfl

@[simp] theorem blockPages_pageBlock : blockPages (pageBlock a k) = 2 ^ k := by
  simp [blockPages]

variable {a k : Nat} {b : Block} {al : BuddyAllocator}

theorem pageBlock_inj {b l : Nat} : pageBlock a k = pageBlock b l ↔ a = b ∧ k = l := by
  simp [pageBlock]

/-- Every block at least one page large is a `pageBlock`. -/
theorem eq_pageBlock (h : pgshift ≤ b.exp) : b = pageBlock b.base (b.exp - pgshift) := by
  obtain ⟨base, e⟩ := b
  simp only [pageBlock, Block.mk.injEq, true_and]
  exact (Nat.sub_add_cancel h).symm

theorem buddyOrderSize_eq (k : Nat) : buddyOrderSize k = 2 ^ (k + pgshift) := by
  simp only [buddyOrderSize, shiftLeft_eq, pgsize_eq]
  rw [← pow_add, add_comm]

theorem pgsize_dvd_size (k : Nat) : pgsize ∣ 2 ^ (k + pgshift) :=
  pow_dvd_pow 2 (Nat.le_add_left _ _)

/-- `buddy_block_fits` decides `Fits`. -/
theorem buddyBlockFits_iff {r : BuddyRegion} : buddyBlockFits r a k = true ↔ Fits r (pageBlock a k) := by
  unfold buddyBlockFits
  constructor
  · intro h
    split at h
    · exact absurd h (by simp)
    rename_i hn
    simp only [Bool.or_eq_true, decide_eq_true_eq, not_or, not_lt] at hn
    simp only [Bool.and_eq_true, decide_eq_true_eq, buddyOrderSize_eq] at h
    obtain ⟨⟨hal, hle⟩, hsz⟩ := h
    refine ⟨Nat.dvd_of_mod_eq_zero hal, Nat.le_add_left _ _, ?_, hn.1.2, ?_⟩
    · exact Nat.add_le_add_right hn.1.1 _
    · show a + 2 ^ (k + pgshift) ≤ r.finish
      omega
  · rintro ⟨hal, _, hhi, hlo, hfin⟩
    have hk : k ≤ buddyMaxOrder := Nat.le_of_add_le_add_right hhi
    have hpg : pgsize ∣ a := (pgsize_dvd_size k).trans hal
    have hal' : a % 2 ^ (k + pgshift) = 0 := Nat.mod_eq_zero_of_dvd hal
    have hfin' : a + 2 ^ (k + pgshift) ≤ r.finish := hfin
    have hlo' : r.allocatableStart ≤ a := hlo
    rw [if_neg]
    · simp only [buddyOrderSize_eq, hal', decide_true, Bool.true_and, Bool.and_eq_true,
        decide_eq_true_eq]
      omega
    · simp only [Bool.or_eq_true, decide_eq_true_eq, not_or, not_lt, ne_eq,
        Nat.mod_eq_zero_of_dvd hpg, not_true_eq_false, not_false_eq_true, and_true]
      exact ⟨hk, hlo'⟩

section
variable (a k : Nat)

/-- `address ^ buddy_order_size(order)` is the base of the buddy. -/
theorem pageBlock_buddy : (pageBlock a k).buddy = pageBlock (a ^^^ buddyOrderSize k) k := by
  rw [buddyOrderSize_eq]
  rfl

theorem pageBlock_lower : (pageBlock a (k + 1)).lower = pageBlock a k := by
  show (⟨a, k + 1 + pgshift - 1⟩ : Block) = ⟨a, k + pgshift⟩
  rw [Nat.add_right_comm, Nat.add_sub_cancel]

theorem pageBlock_upper : (pageBlock a (k + 1)).upper = pageBlock (a + buddyOrderSize k) k := by
  show (⟨a + 2 ^ (k + 1 + pgshift - 1), k + 1 + pgshift - 1⟩ : Block) = ⟨a + buddyOrderSize k, k + pgshift⟩
  rw [Nat.add_right_comm, Nat.add_sub_cancel, buddyOrderSize_eq]

/-- The union the merging loop goes on with is the parent. -/
theorem pageBlock_parent : (pageBlock a k).parent =
      pageBlock (if a ^^^ buddyOrderSize k < a then a ^^^ buddyOrderSize k else a) (k + 1) := by
  show (⟨min a (a ^^^ 2 ^ (k + pgshift)), k + pgshift + 1⟩ : Block) = _
  rw [buddyOrderSize_eq]
  simp only [pageBlock, Block.mk.injEq]
  refine ⟨?_, by rw [Nat.add_right_comm]⟩
  split
  · rename_i h
    exact Nat.min_eq_right (Nat.le_of_lt h)
  · rename_i h
    exact Nat.min_eq_left (Nat.le_of_not_lt h)

end

/-! ## The free lists as one list -/

theorem mem_freeBlocks :
    b ∈ freeBlocks al ↔ ∃ k, k ≤ buddyMaxOrder ∧ ∃ a ∈ (al.areas k).blocks, pageBlock a k = b := by
  simp only [freeBlocks, mem_flatMap, mem_range, Nat.lt_succ_iff, mem_map]

theorem pageBlock_mem_freeBlocks :
    pageBlock a k ∈ freeBlocks al ↔ k ≤ buddyMaxOrder ∧ a ∈ (al.areas k).blocks := by
  rw [mem_freeBlocks]
  constructor
  · rintro ⟨l, hl, b, hb, he⟩
    obtain ⟨rfl, rfl⟩ := pageBlock_inj.mp he
    exact ⟨hl, hb⟩
  · rintro ⟨hk, ha⟩
    exact ⟨k, hk, a, ha, rfl⟩

/-- Changing one summand of a `flatMap` by one element changes the whole by that element. -/
theorem flatMap_perm_cons {α β : Type} {f g : α → List β} {k : α} {b : β} :
    ∀ {l : List α}, l.Nodup → k ∈ l → (∀ x, x ≠ k → f x = g x) → (f k).Perm (b :: g k) →
      (l.flatMap f).Perm (b :: l.flatMap g) := by
  intro l
  induction l with
  | nil => intro _ hk; exact absurd hk (by simp)
  | cons x xs ih =>
    intro hnd hk hfg hkp
    obtain ⟨hx, hxs⟩ := nodup_cons.mp hnd
    simp only [flatMap_cons]
    by_cases hxk : x = k
    · subst hxk
      have hrest : xs.flatMap f = xs.flatMap g :=
        flatMap_congr fun y hy => hfg y fun he => hx (he ▸ hy)
      rw [hrest]
      exact hkp.append_right _
    have hkxs : k ∈ xs := by
      rcases mem_cons.mp hk with h | h
      · exact absurd h.symm hxk
      · exact h
    rw [hfg x hxk]
    exact ((ih hxs hkxs hfg hkp).append_left (g x)).trans perm_middle

theorem freeBlocks_push (hk : k ≤ buddyMaxOrder) :
    (freeBlocks (al.push a k)).Perm (pageBlock a k :: freeBlocks al) := by
  refine flatMap_perm_cons nodup_range (mem_range.mpr (lt_succ_of_le hk)) ?_ ?_
  · intro l hl
    simp only [BuddyAllocator.push, update_of_ne hl]
  · simp only [BuddyAllocator.push, update_self, map_cons, List.Perm.refl]

theorem freeBlocks_remove (hk : k ≤ buddyMaxOrder) (ha : a ∈ (al.areas k).blocks) :
    (freeBlocks al).Perm (pageBlock a k :: freeBlocks (buddyListRemove al a k)) := by
  refine flatMap_perm_cons nodup_range (mem_range.mpr (lt_succ_of_le hk)) ?_ ?_
  · intro l hl
    simp only [buddyListRemove, update_of_ne hl]
  · simp only [buddyListRemove, update_self]
    exact (perm_cons_erase ha).map (pageBlock · k)

theorem freePageSum_perm {al' : BuddyAllocator} (h : (freeBlocks al).Perm (b :: freeBlocks al')) :
    freePageSum al = blockPages b + freePageSum al' := by
  have := (h.map blockPages).sum_nat
  simpa only [freePageSum, map_cons, sum_cons] using this

variable (al : BuddyAllocator) (i : Nat) (j : Option Nat) (v : UInt8)

@[simp] theorem setState_areas : (al.setState i j v).areas = al.areas := by
  cases j <;> rfl

@[simp] theorem setState_regions : (al.setState i j v).regions = al.regions := by
  cases j <;> rfl

@[simp] theorem setState_freePages : (al.setState i j v).freePages = al.freePages := by
  cases j <;> rfl

@[simp] theorem freeBlocks_setState : freeBlocks (al.setState i j v) = freeBlocks al := by
  simp only [freeBlocks, setState_areas]

@[simp] theorem freePageSum_setState : freePageSum (al.setState i j v) = freePageSum al := by
  simp only [freePageSum, freeBlocks_setState]

end Caffeinix.Buddy
