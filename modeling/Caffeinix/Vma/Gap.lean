import Caffeinix.Vma.World
import Mathlib.Order.Bounds.Basic
import Mathlib.Data.Nat.ModEq

/-!
# `Vma.Gap` — the search for free address ranges (`vma_find_gap_aligned`)

The search takes the hint, rounded up, if the range there is free. Otherwise it goes through the areas from the
last to the first with a cursor at the start of the area passed last, and rounds the end of every gap down. `Best`
says what each stage of the search returns: the greatest address of the set of those it looks for, or nothing if
that set is empty.
-/

namespace Caffeinix.Vma

open Nat List Intervals

/-- The arguments of `vma_find_gap_aligned` besides the set. -/
structure GapArgs where
  low : Nat
  high : Nat
  hint : Nat
  length : Nat
  alignment : Nat
  alignOffset : Nat

/-- `align_up_offset`. -/
def alignUpOffset (value alignment offset : Nat) : Option Nat :=
  let mask := alignment - 1
  let residue := offset &&& mask
  if value ≤ residue then some residue
  else if value - residue > uint64Max - mask then none
  -- `x & ~mask`
  else some (residue + (value - residue + mask - ((value - residue + mask) &&& mask)))

/-- `align_down_offset`. -/
def alignDownOffset (value alignment offset : Nat) : Option Nat :=
  let mask := alignment - 1
  let residue := offset &&& mask
  if value < residue then none
  else some (residue + (value - residue - ((value - residue) &&& mask)))

/-- `gap_aligned_address`. -/
def gapAlignedAddress (g : GapArgs) (start finish : Nat) : Option Nat :=
  if start ≥ finish || g.length > finish - start then none
  else (alignDownOffset (finish - g.length) g.alignment g.alignOffset).filter fun candidate => !(candidate < start)

/-- The argument check of `vma_find_gap_aligned`. -/
def vmaGapRefused (g : GapArgs) : Bool :=
  g.low ≥ g.high || g.length = 0 || g.low % pgsize ≠ 0 || g.high % pgsize ≠ 0 || g.length % pgsize ≠ 0 ||
  (g.hint ≠ 0 && g.hint % pgsize ≠ 0) || g.alignment < pgsize || g.alignment &&& (g.alignment - 1) ≠ 0 ||
  g.alignOffset % pgsize ≠ 0 || g.length > g.high - g.low

/-- The loop of `vma_find_gap_aligned` over the areas, the last one first. -/
def vmaGapLoop (g : GapArgs) : Nat → List VmArea → Option Nat
  | cursor, [] => gapAlignedAddress g g.low cursor
  | cursor, area :: rest =>
    if area.start ≥ cursor then vmaGapLoop g cursor rest
    else if area.finish ≤ g.low then gapAlignedAddress g g.low cursor
    else
      let gapStart := if area.finish > g.low then area.finish else g.low
      match if area.finish < cursor then gapAlignedAddress g gapStart cursor else none with
      | some address => some address
      | none => if area.start ≤ g.low then none else vmaGapLoop g area.start rest

/-- The candidate at the hint, if it is to be taken. -/
def vmaGapHint (areas : List VmArea) (g : GapArgs) : Option Nat :=
  if g.hint ≥ g.low && g.hint ≤ g.high - g.length then
    (alignUpOffset g.hint g.alignment g.alignOffset).filter fun candidate =>
      candidate ≤ g.high - g.length && vmaRangeFree areas candidate (candidate + g.length)
  else none

/-- `vma_find_gap_aligned`. -/
def vmaFindGapAligned (areas : List VmArea) (g : GapArgs) : Option Nat :=
  if vmaGapRefused g then none
  else
    match vmaGapHint areas g with
    | some candidate => some candidate
    | none => vmaGapLoop g g.high areas.reverse

/-! ## Rounding -/

/-- A multiple of the alignment past the offset. -/
def GapArgs.Aligned (g : GapArgs) (a : Nat) : Prop := a ≡ g.alignOffset [MOD g.alignment]

/-- The arguments pass the check, as numbers of 64 bits. -/
structure GapArgs.Valid (g : GapArgs) : Prop where
  accepted : vmaGapRefused g = false
  high : g.high ≤ uint64Max
  alignment : g.alignment ≤ uint64Max

variable {g : GapArgs} {areas l : List VmArea} {a start finish cursor : Nat}

/-- What the check says. -/
theorem GapArgs.Valid.bounds (h : g.Valid) :
    0 < g.length ∧ g.low < g.high ∧ g.length ≤ g.high - g.low ∧ ∃ k, g.alignment = 2 ^ k := by
  have hacc := h.accepted
  simp only [vmaGapRefused, Bool.or_eq_false_iff, decide_eq_false_iff_not, ge_iff_le, not_le, not_not,
    not_lt] at hacc
  obtain ⟨⟨⟨⟨⟨⟨⟨⟨⟨hlow, hlen⟩, -⟩, -⟩, -⟩, -⟩, halign⟩, hpow⟩, -⟩, hfit⟩ := hacc
  have hpos : g.alignment ≠ 0 := by
    have := pgsize_pos
    omega
  exact ⟨by omega, hlow, hfit, (and_sub_one_eq_zero_iff_isPowerOfTwo hpos).1 hpow⟩

/-- With a power of two as alignment, the mask takes the remainder. -/
theorem and_mask {k : Nat} {x : Nat} (h : g.alignment = 2 ^ k) : x &&& (g.alignment - 1) = x % g.alignment := by
  rw [h, and_two_pow_sub_one_eq_mod]

/-- Aligned addresses are the remainder of the offset and a multiple of the alignment. -/
theorem GapArgs.aligned_iff : g.Aligned a ↔ ∃ n, a = g.alignOffset % g.alignment + g.alignment * n := by
  constructor
  · intro ha
    refine ⟨a / g.alignment, ?_⟩
    rw [← show a % g.alignment = g.alignOffset % g.alignment from ha, mod_add_div]
  · rintro ⟨n, rfl⟩
    show _ % _ = _ % _
    rw [add_mul_mod_self_left, mod_mod]

/-- Two aligned addresses that are less than the alignment apart are one. -/
theorem GapArgs.Aligned.le {b : Nat} (ha : g.Aligned a) (hb : g.Aligned b) (h : b < a + g.alignment) : b ≤ a := by
  obtain ⟨n, rfl⟩ := g.aligned_iff.1 ha
  obtain ⟨m, rfl⟩ := g.aligned_iff.1 hb
  have hm : m < n + 1 := Nat.lt_of_mul_lt_mul_left (a := g.alignment) (by rw [Nat.mul_add]; omega)
  exact Nat.add_le_add_left (Nat.mul_le_mul_left _ (Nat.le_of_lt_succ hm)) _

/-- An outcome of a search: the greatest of the set, or nothing if there is none. -/
def Best (S : Nat → Prop) : Option Nat → Prop
  | some a => IsGreatest {x | S x} a
  | none => ∀ a, ¬ S a

theorem Best.congr {S T : Nat → Prop} {o : Option Nat} (h : Best S o) (heq : ∀ a, T a ↔ S a) : Best T o := by
  have hST : T = S := funext fun a => propext (heq a)
  rwa [hST]

theorem alignDownOffset_best (hg : g.Valid) (value : Nat) :
    Best (fun a => g.Aligned a ∧ a ≤ value) (alignDownOffset value g.alignment g.alignOffset) := by
  obtain ⟨-, -, -, k, hk⟩ := hg.bounds
  have hpos : 0 < g.alignment := hk ▸ Nat.two_pow_pos k
  unfold alignDownOffset
  simp only [and_mask hk]
  split
  · rename_i hlt
    rintro a ⟨ha, hle⟩
    obtain ⟨n, rfl⟩ := g.aligned_iff.1 ha
    omega
  rename_i hge
  rw [← mul_div_self_eq_mod_sub_self]
  have hdiv := div_add_mod (value - g.alignOffset % g.alignment) g.alignment
  have hmod := Nat.mod_lt (value - g.alignOffset % g.alignment) hpos
  have hal := g.aligned_iff.2 ⟨(value - g.alignOffset % g.alignment) / g.alignment, rfl⟩
  refine ⟨⟨hal, by omega⟩, ?_⟩
  rintro b ⟨hb, hle⟩
  exact hal.le hb (by omega)

variable {c value : Nat}

/-- What is returned is the least aligned address from the value on. -/
theorem alignUpOffset_least (hg : g.Valid) (h : alignUpOffset value g.alignment g.alignOffset = some c) :
    IsLeast {a | g.Aligned a ∧ value ≤ a} c := by
  obtain ⟨-, -, -, k, hk⟩ := hg.bounds
  have hpos : 0 < g.alignment := hk ▸ Nat.two_pow_pos k
  have hres := Nat.mod_lt g.alignOffset hpos
  have hleast : ∀ b, g.Aligned b → value ≤ b → b < value + g.alignment → IsLeast {a | g.Aligned a ∧ value ≤ a} b :=
    fun b hb hvb hlt => ⟨⟨hb, hvb⟩, fun x hx => hx.1.le hb (hlt.trans_le (Nat.add_le_add_right hx.2 _))⟩
  unfold alignUpOffset at h
  simp only [and_mask hk] at h
  split at h
  · cases h
    exact hleast _ (g.aligned_iff.2 ⟨0, by simp⟩) ‹_› (by omega)
  split at h
  · cases h
  cases h
  rw [← mul_div_self_eq_mod_sub_self]
  have hdiv := div_add_mod (value - g.alignOffset % g.alignment + (g.alignment - 1)) g.alignment
  have hmod := Nat.mod_lt (value - g.alignOffset % g.alignment + (g.alignment - 1)) hpos
  exact hleast _ (g.aligned_iff.2 ⟨_, rfl⟩) (by omega) (by omega)

/-- If there is one among the numbers of 64 bits, it is returned. -/
theorem alignUpOffset_eq_some (hg : g.Valid) (hc : IsLeast {a | g.Aligned a ∧ value ≤ a} c)
    (hmax : c ≤ uint64Max) : alignUpOffset value g.alignment g.alignOffset = some c := by
  obtain ⟨-, -, -, k, hk⟩ := hg.bounds
  cases h : alignUpOffset value g.alignment g.alignOffset with
  | some => rw [(alignUpOffset_least hg h).unique hc]
  | none =>
    exfalso
    unfold alignUpOffset at h
    simp only [and_mask hk] at h
    split at h
    · cases h
    split at h
    · rename_i hover
      obtain ⟨n, hn⟩ := g.aligned_iff.1 hc.1.1
      have hle : value ≤ c := hc.1.2
      -- a multiple of the alignment below 2 ^ 64 leaves room for the mask
      have hk64 : k ≤ 64 := by
        refine (Nat.pow_le_pow_iff_right (by decide : 1 < 2)).1 ?_
        rw [← hk]
        exact hg.alignment.trans (Nat.sub_le _ _)
      have hpow : g.alignment * 2 ^ (64 - k) = 2 ^ 64 := by rw [hk, ← Nat.pow_add, Nat.add_sub_cancel' hk64]
      unfold uint64Max at hmax hover
      have hlt : g.alignment * n < g.alignment * 2 ^ (64 - k) := by omega
      have hroom := Nat.mul_le_mul_left g.alignment (Nat.succ_le_of_lt (Nat.lt_of_mul_lt_mul_left hlt))
      rw [Nat.mul_succ, hpow] at hroom
      omega
    · cases h

/-! ## The search -/

/-- The range of `length` from `a` on keeps clear of the areas. -/
def GapArgs.Clear (g : GapArgs) (areas : List VmArea) (a : Nat) : Prop :=
  ∀ area ∈ areas, area.finish ≤ a ∨ a + g.length ≤ area.start

theorem gapAlignedAddress_best (hg : g.Valid) :
    Best (fun a => g.Aligned a ∧ start ≤ a ∧ a + g.length ≤ finish) (gapAlignedAddress g start finish) := by
  have hlen := hg.bounds.1
  unfold gapAlignedAddress
  split
  · rename_i hno
    simp only [ge_iff_le, gt_iff_lt, Bool.or_eq_true, decide_eq_true_eq] at hno
    rintro a ⟨-, hs, hf⟩
    omega
  rename_i hroom
  simp only [ge_iff_le, gt_iff_lt, Bool.or_eq_true, decide_eq_true_eq, not_or, not_le, not_lt] at hroom
  have hdown := alignDownOffset_best hg (finish - g.length)
  cases hd : alignDownOffset (finish - g.length) g.alignment g.alignOffset with
  | none =>
    rw [hd] at hdown
    rintro a ⟨ha, -, hf⟩
    exact hdown a ⟨ha, by omega⟩
  | some c =>
    rw [hd] at hdown
    obtain ⟨⟨hal, hle⟩, hmax⟩ := hdown
    by_cases hc : c < start
    · rw [Option.filter_some_neg (by simpa using hc)]
      rintro a ⟨ha, hs, hf⟩
      have : a ≤ c := hmax ⟨ha, by omega⟩
      omega
    · rw [Option.filter_some_pos (by simpa using hc)]
      refine ⟨⟨hal, by omega, by omega⟩, ?_⟩
      rintro a ⟨ha, -, hf⟩
      exact hmax ⟨ha, by omega⟩

/-- The loop finds the greatest address below the cursor that keeps clear of the areas it has before it. -/
theorem vmaGapLoop_best (hg : g.Valid) (hsorted : l.Pairwise fun b c => c.finish ≤ b.start)
    (hne : ∀ b ∈ l, b.start < b.finish) :
    Best (fun a => g.Aligned a ∧ (g.low ≤ a ∧ a + g.length ≤ cursor) ∧ g.Clear l a) (vmaGapLoop g cursor l) := by
  have hlen := hg.bounds.1
  induction l generalizing cursor with
  | nil =>
    refine (gapAlignedAddress_best hg).congr fun a => ?_
    simp [GapArgs.Clear]
  | cons c l ih =>
    obtain ⟨hc, hl⟩ := pairwise_cons.1 hsorted
    obtain ⟨hcne, hlne⟩ := forall_mem_cons.1 hne
    unfold vmaGapLoop
    split
    · -- the area lies past the cursor
      rename_i hpast
      refine (ih hl hlne).congr fun a => and_congr_right fun _ => and_congr_right fun hin => ?_
      simp only [GapArgs.Clear, forall_mem_cons]
      exact and_iff_right (.inr (by omega))
    rename_i hbefore
    split
    · -- this area and the ones before it lie below the bound
      rename_i hbelow
      refine (gapAlignedAddress_best hg).congr fun a => ?_
      refine and_congr_right fun _ => and_iff_left_of_imp fun hin => forall_mem_cons.2 ⟨.inl (by omega), ?_⟩
      intro b hb
      have := hc b hb
      exact .inl (by omega)
    rename_i hlow
    rw [if_pos (Nat.lt_of_not_le hlow)]
    -- the gap between this area and the cursor
    have hgap : Best (fun a => g.Aligned a ∧ c.finish ≤ a ∧ a + g.length ≤ cursor)
        (if c.finish < cursor then gapAlignedAddress g c.finish cursor else none) := by
      split
      · exact gapAlignedAddress_best hg
      · rintro a ⟨-, hs, hf⟩
        omega
    dsimp only
    split
    · rename_i a hfound
      rw [hfound] at hgap
      obtain ⟨⟨hal, hs, hf⟩, hmax⟩ := hgap
      refine ⟨⟨hal, ⟨by omega, hf⟩, forall_mem_cons.2 ⟨.inl hs, fun b hb => .inl ?_⟩⟩, ?_⟩
      · have := hc b hb
        omega
      · rintro x ⟨hx, ⟨-, hxf⟩, hclear⟩
        cases (forall_mem_cons.1 hclear).1 with
        | inl habove => exact hmax ⟨hx, habove, hxf⟩
        | inr => omega
    · rename_i hfound
      rw [hfound] at hgap
      -- what is left lies below this area
      have hunder : ∀ a, g.Aligned a ∧ (g.low ≤ a ∧ a + g.length ≤ cursor) ∧ g.Clear (c :: l) a →
          a + g.length ≤ c.start ∧ g.Clear l a := by
        rintro a ⟨ha, ⟨-, hf⟩, hclear⟩
        obtain ⟨hthis, hrest⟩ := forall_mem_cons.1 hclear
        exact ⟨hthis.resolve_left fun hs => hgap a ⟨ha, hs, hf⟩, hrest⟩
      split
      · intro a ha
        have := (hunder a ha).1
        omega
      · refine (ih hl hlne).congr fun a => ⟨fun ha => ⟨ha.1, ⟨ha.2.1.1, (hunder a ha).1⟩, (hunder a ha).2⟩, ?_⟩
        rintro ⟨ha, ⟨hlo, hf⟩, hclear⟩
        exact ⟨ha, ⟨hlo, by omega⟩, forall_mem_cons.2 ⟨.inr hf, hclear⟩⟩

/-! ## The result -/

/-- No address of the range is mapped. -/
def GapArgs.Unmapped (g : GapArgs) (areas : List VmArea) (a : Nat) : Prop :=
  ∀ x, a ≤ x → x < a + g.length → ¬ ∃ area ∈ areas, area.Has x

/-- An aligned range between the bounds that is free. -/
def GapArgs.Free (g : GapArgs) (areas : List VmArea) (a : Nat) : Prop :=
  g.Aligned a ∧ (g.low ≤ a ∧ a + g.length ≤ g.high) ∧ g.Unmapped areas a

theorem GapArgs.unmapped_iff_clear (hlen : 0 < g.length) (hne : ∀ b ∈ areas, b.start < b.finish) :
    g.Unmapped areas a ↔ g.Clear areas a := by
  constructor
  · intro h b hb
    have := hne b hb
    by_contra hno
    -- the larger of the two starts is in both
    exact h (max a b.start) (by omega) (by omega) ⟨b, hb, by omega, by omega⟩
  · rintro h x hax hxa ⟨b, hb, hs, hf⟩
    have := h b hb
    omega

theorem SetWellFormed.chain (h : SetWellFormed areas) : Areas 0 areas maxva :=
  Chain.of_sorted h.sorted h.nonempty (fun _ _ => zero_le _) h.below (zero_le _)

/-- The hint rounded up, `c`, is one to be taken. -/
def GapArgs.TakesHint (g : GapArgs) (areas : List VmArea) (c : Nat) : Prop :=
  (g.low ≤ g.hint ∧ g.hint ≤ g.high - g.length) ∧ c + g.length ≤ g.high ∧ g.Unmapped areas c

theorem vmaGapHint_spec (hwf : SetWellFormed areas) (hg : g.Valid)
    (hc : IsLeast {a | g.Aligned a ∧ g.hint ≤ a} c) :
    (g.TakesHint areas c → vmaGapHint areas g = some c) ∧ (¬ g.TakesHint areas c → vmaGapHint areas g = none) := by
  obtain ⟨hlen, hlow, hfit, -⟩ := hg.bounds
  have hcheck : (c ≤ g.high - g.length && vmaRangeFree areas c (c + g.length)) = true ↔
      c + g.length ≤ g.high ∧ g.Unmapped areas c := by
    rw [Bool.and_eq_true, decide_eq_true_eq, vmaRangeFree_iff hwf.chain]
    exact and_congr (by omega) (and_iff_right (by omega))
  unfold vmaGapHint
  constructor
  · rintro ⟨hin, hfits⟩
    have hmax : c ≤ uint64Max := le_trans (by omega) hg.high
    rw [if_pos (by simpa using hin), alignUpOffset_eq_some hg hc hmax]
    exact Option.filter_some_pos (hcheck.2 hfits)
  · intro hno
    split
    · rename_i hin
      cases h : alignUpOffset g.hint g.alignment g.alignOffset with
      | none => rfl
      | some =>
        rw [(alignUpOffset_least hg h).unique hc]
        refine Option.filter_some_neg (Bool.eq_false_iff.2 fun hfits => hno ⟨by simpa using hin, hcheck.1 hfits⟩)
    · rfl

/-- **The search for a free range is sound, complete and takes the highest.** It returns the hint rounded up, `c`,
    if the hint lies between the bounds and the range from `c` on ends below the upper bound and is not mapped. If
    not, it returns the greatest address that will do, and fails exactly when none will do. -/
theorem vmaFindGapAligned_best (hwf : SetWellFormed areas) (hg : g.Valid) {c : Nat}
    (hc : IsLeast {a | g.Aligned a ∧ g.hint ≤ a} c) :
    (g.TakesHint areas c → vmaFindGapAligned areas g = some c) ∧
      (¬ g.TakesHint areas c → Best (g.Free areas) (vmaFindGapAligned areas g)) := by
  obtain ⟨hhint, hnone⟩ := vmaGapHint_spec hwf hg hc
  unfold vmaFindGapAligned
  rw [hg.accepted, if_neg Bool.false_ne_true]
  constructor
  · intro htakes
    rw [hhint htakes]
  · intro hno
    rw [hnone hno]
    have hne : ∀ b ∈ areas.reverse, b.start < b.finish := fun b hb => hwf.nonempty b (mem_reverse.1 hb)
    refine (vmaGapLoop_best hg (pairwise_reverse.2 hwf.sorted) hne).congr fun a => ?_
    refine and_congr_right fun _ => and_congr_right fun _ => (g.unmapped_iff_clear hg.bounds.1 hwf.nonempty).trans ?_
    simp only [GapArgs.Clear, mem_reverse]

/-- One area at `0x201000`, with a hint below it and an alignment of two megabytes: the hint would end in the area,
    and the next address down from the end of the range is taken. -/
theorem vmaFindGapAligned_past_area :
    Best (GapArgs.Free ⟨0x1000, 0x800000, 0x3000, 0x3000, 0x200000, 0x1000⟩
        [⟨0x201000, 0x205000, 0, 0, 1, 2, .anonymous, .mmap, none, none⟩])
      (vmaFindGapAligned [⟨0x201000, 0x205000, 0, 0, 1, 2, .anonymous, .mmap, none, none⟩]
        ⟨0x1000, 0x800000, 0x3000, 0x3000, 0x200000, 0x1000⟩) := by
  refine (vmaFindGapAligned_best (c := 0x201000) ?_ ⟨by decide, by decide, by decide⟩ ?_).2 ?_
  · constructor <;> simp [pgsize, maxva, VmArea.HasOffset]
  · refine alignUpOffset_least ⟨by decide, by decide, by decide⟩ (by decide)
  · rintro ⟨-, -, hfree⟩
    exact hfree 0x201000 (by decide) (by decide) ⟨_, mem_singleton.2 rfl, by decide, by decide⟩

end Caffeinix.Vma
