import Mathlib.Data.List.Pairwise
import Mathlib.Data.Nat.Bitwise
import Mathlib.Data.Set.Disjoint

/-!
# `Lib.Tiling` — aligned power-of-two blocks and their tilings

Nothing here mentions an allocator. A `Block` is `2 ^ exp` consecutive addresses from `base`; it is
`Aligned` when its size divides its base. Aligned blocks form a forest: two of them are nested or apart
(`Aligned.nested`), every block splits into two halves, and flipping bit `exp` of the base (`buddy`)
names the other half of the parent.

A list of blocks **tiles** a set of addresses when the blocks are pairwise apart and cover exactly the
set. Splitting a block and merging two halves keep the tiled set (`Tiles.split`), as does any permutation.
A tiling with no two mergeable buddies left is determined by the set it tiles (`mem_iff_maximal`), and it
swallows whole every aligned block of the set (`exists_tile_above`).
-/

namespace Caffeinix.Tiling

/-- `2 ^ exp` consecutive addresses from `base`. -/
structure Block where
  base : Nat
  exp : Nat
  deriving DecidableEq, Repr

namespace Block

/-- `x` is one of the block's addresses. -/
def Has (b : Block) (x : Nat) : Prop := b.base ≤ x ∧ x < b.base + 2 ^ b.exp

/-- The block's size divides its base. -/
def Aligned (b : Block) : Prop := 2 ^ b.exp ∣ b.base

/-- The two blocks share no address. -/
def Apart (b c : Block) : Prop := b.base + 2 ^ b.exp ≤ c.base ∨ c.base + 2 ^ c.exp ≤ b.base

/-- `b` lies inside `c`. -/
def Within (b c : Block) : Prop := c.base ≤ b.base ∧ b.base + 2 ^ b.exp ≤ c.base + 2 ^ c.exp

/-- The block that shares `b`'s parent with it: the base with bit `exp` flipped. -/
def buddy (b : Block) : Block := ⟨b.base ^^^ 2 ^ b.exp, b.exp⟩

/-- The block twice as large that holds `b` and its buddy. -/
def parent (b : Block) : Block := ⟨min b.base b.buddy.base, b.exp + 1⟩

/-- The lower half of `b` (of a block with `0 < exp`). -/
def lower (b : Block) : Block := ⟨b.base, b.exp - 1⟩

/-- The upper half of `b` (of a block with `0 < exp`). -/
def upper (b : Block) : Block := ⟨b.base + 2 ^ (b.exp - 1), b.exp - 1⟩

variable {b c : Block} {x e : Nat}

theorem Apart.symm (h : b.Apart c) : c.Apart b := Or.symm h

theorem has_base (b : Block) : b.Has b.base :=
  ⟨Nat.le_refl _, Nat.lt_add_of_pos_right (Nat.two_pow_pos _)⟩

theorem Within.has (h : b.Within c) (hx : b.Has x) : c.Has x :=
  ⟨h.1.trans hx.1, lt_of_lt_of_le hx.2 h.2⟩

theorem Apart.not_has (h : b.Apart c) (hb : b.Has x) : ¬ c.Has x := by
  intro hc
  obtain ⟨h1, h2⟩ := hb
  obtain ⟨h3, h4⟩ := hc
  rcases h with h | h <;> omega

theorem not_apart_iff : ¬ b.Apart c ↔ ∃ x, b.Has x ∧ c.Has x := by
  constructor
  · intro h
    simp only [Apart, not_or, Nat.not_le] at h
    have hb := Nat.two_pow_pos b.exp
    have hc := Nat.two_pow_pos c.exp
    refine ⟨max b.base c.base, ⟨?_, ?_⟩, ⟨?_, ?_⟩⟩ <;> omega
  · rintro ⟨x, hb, hc⟩ h
    exact h.not_has hb hc

/-- A block inside `c` is apart from everything `c` is apart from. -/
theorem Apart.mono {d : Block} (h : c.Apart d) (hb : b.Within c) : b.Apart d := by
  obtain ⟨h1, h2⟩ := hb
  rcases h with h | h
  · exact .inl (by omega)
  · exact .inr (by omega)

theorem not_apart_self (b : Block) : ¬ b.Apart b :=
  not_apart_iff.mpr ⟨b.base, b.has_base, b.has_base⟩

/-! ## Aligned blocks are nested or apart -/

/-- **Nesting.** If two aligned blocks meet, the one that is not larger lies inside the other. -/
theorem Aligned.nested (hb : b.Aligned) (hc : c.Aligned) (he : b.exp ≤ c.exp) (hbx : b.Has x)
    (hcx : c.Has x) : b.Within c := by
  obtain ⟨m, hm⟩ := hb
  obtain ⟨n, hn⟩ := (Nat.pow_dvd_pow 2 he).trans hc
  obtain ⟨q, hq⟩ := Nat.pow_dvd_pow 2 he
  obtain ⟨h1, h2⟩ := hbx
  obtain ⟨h3, h4⟩ := hcx
  rw [hm] at h1 h2
  rw [hn] at h3 h4
  rw [hq] at h4
  -- in units of `b`'s size: `n ≤ m` and `m < n + q`, hence `m + 1 ≤ n + q`
  have hnm : n < m + 1 := by
    apply Nat.lt_of_mul_lt_mul_left (a := 2 ^ b.exp)
    rw [Nat.mul_add]
    omega
  have hmq : m < n + q := by
    apply Nat.lt_of_mul_lt_mul_left (a := 2 ^ b.exp)
    rw [Nat.mul_add]
    omega
  refine ⟨?_, ?_⟩
  · rw [hm, hn]
    exact Nat.mul_le_mul_left _ (by omega)
  · rw [hm, hn, hq]
    calc 2 ^ b.exp * m + 2 ^ b.exp = 2 ^ b.exp * (m + 1) := by rw [Nat.mul_add, Nat.mul_one]
      _ ≤ 2 ^ b.exp * (n + q) := Nat.mul_le_mul_left _ (by omega)
      _ = 2 ^ b.exp * n + 2 ^ b.exp * q := Nat.mul_add ..

/-- Two aligned blocks of one size that meet are equal. -/
theorem Aligned.eq_of_exp_eq (hb : b.Aligned) (hc : c.Aligned) (he : b.exp = c.exp) (hbx : b.Has x)
    (hcx : c.Has x) : b = c := by
  have h1 := hb.nested hc (le_of_eq he) hbx hcx
  have h2 := hc.nested hb (le_of_eq he.symm) hcx hbx
  obtain ⟨bb, be⟩ := b
  obtain ⟨cb, ce⟩ := c
  subst he
  have : bb = cb := le_antisymm h2.1 h1.1
  rw [this]

theorem Within.exp_le (h : b.Within c) : b.exp ≤ c.exp := by
  obtain ⟨h1, h2⟩ := h
  exact (Nat.pow_le_pow_iff_right (by decide : 1 < 2)).mp (by omega : 2 ^ b.exp ≤ 2 ^ c.exp)

/-! ## Halves and buddies -/

theorem two_pow_pred_add (h : 0 < e) : 2 ^ (e - 1) + 2 ^ (e - 1) = 2 ^ e := by
  obtain ⟨k, rfl⟩ := Nat.exists_eq_succ_of_ne_zero (Nat.ne_of_gt h)
  simp only [Nat.succ_eq_add_one, Nat.add_sub_cancel, Nat.pow_succ]
  omega

theorem lower_within (h : 0 < b.exp) : b.lower.Within b := by
  have := two_pow_pred_add h
  have := Nat.two_pow_pos (b.exp - 1)
  exact ⟨Nat.le_refl _, by simp only [lower]; omega⟩

theorem upper_within (h : 0 < b.exp) : b.upper.Within b := by
  have := two_pow_pred_add h
  exact ⟨Nat.le_add_right _ _, by simp only [upper]; omega⟩

theorem lower_apart_upper (b : Block) : b.lower.Apart b.upper := .inl (Nat.le_refl _)

theorem has_iff_halves (h : 0 < b.exp) : b.Has x ↔ b.lower.Has x ∨ b.upper.Has x := by
  have := two_pow_pred_add h
  simp only [Has, lower, upper]
  omega

section
variable (h : b.Aligned)
include h

theorem Aligned.lower : b.lower.Aligned :=
  (Nat.pow_dvd_pow 2 (Nat.sub_le _ _)).trans h

theorem Aligned.upper : b.upper.Aligned :=
  Nat.dvd_add h.lower (Nat.dvd_refl _)

omit h in
/-- In units of the block's size, flipping bit `exp` flips the lowest bit of the index. -/
theorem buddy_base_of_mul {m : Nat} : (2 ^ e * m) ^^^ 2 ^ e = 2 ^ e * (m ^^^ 1) := by
  have h := Nat.shiftLeft_xor_distrib (i := e) (a := m) (b := 1)
  simp only [Nat.shiftLeft_eq, Nat.one_mul] at h
  rw [Nat.mul_comm _ m, Nat.mul_comm _ (m ^^^ 1), h]

/-- The buddy sits right above or right below, and the parent is aligned either way. -/
theorem Aligned.buddy_cases :
    (b.buddy.base = b.base + 2 ^ b.exp ∧ 2 ^ (b.exp + 1) ∣ b.base) ∨
    (b.base = b.buddy.base + 2 ^ b.exp ∧ 2 ^ (b.exp + 1) ∣ b.buddy.base) := by
  obtain ⟨m, hm⟩ := h
  simp only [buddy, hm, buddy_base_of_mul]
  rcases Nat.even_or_odd m with hev | hodd
  · left
    rw [Nat.xor_one_of_even hev]
    obtain ⟨k, rfl⟩ := hev.two_dvd
    exact ⟨by rw [Nat.mul_add, Nat.mul_one], ⟨k, by rw [Nat.pow_succ, Nat.mul_assoc]⟩⟩
  right
  rw [Nat.xor_one_of_odd hodd]
  obtain ⟨k, rfl⟩ := hodd
  refine ⟨by rw [Nat.add_sub_cancel, Nat.mul_add, Nat.mul_one], ⟨k, ?_⟩⟩
  rw [Nat.add_sub_cancel, Nat.pow_succ, Nat.mul_assoc]

omit h in
@[simp] theorem buddy_buddy (b : Block) : b.buddy.buddy = b := by
  obtain ⟨base, e⟩ := b
  simp only [buddy, Block.mk.injEq, and_true]
  rw [Nat.xor_assoc, Nat.xor_self, Nat.xor_zero]

theorem Aligned.buddy_ne : b.buddy ≠ b := by
  intro he
  have hb : b.buddy.base = b.base := by rw [he]
  rcases h.buddy_cases with ⟨hc, _⟩ | ⟨hc, _⟩ <;> omega

theorem Aligned.buddy : b.buddy.Aligned := by
  have h2 : 2 ^ b.exp ∣ 2 ^ (b.exp + 1) := Nat.pow_dvd_pow 2 (Nat.le_succ _)
  rcases h.buddy_cases with ⟨he, hd⟩ | ⟨_, hd⟩
  · show 2 ^ b.exp ∣ b.buddy.base
    rw [he]
    exact Nat.dvd_add h (Nat.dvd_refl _)
  · exact h2.trans hd

theorem Aligned.parent : b.parent.Aligned := by
  show 2 ^ (b.exp + 1) ∣ min b.base b.buddy.base
  rcases h.buddy_cases with ⟨he, hd⟩ | ⟨he, hd⟩
  · rwa [Nat.min_eq_left (by omega)]
  · rwa [min_eq_right (by omega)]

/-- The parent's two halves are the block and its buddy, in one order or the other. -/
theorem Aligned.parent_halves :
    (b.parent.lower = b ∧ b.parent.upper = b.buddy) ∨
    (b.parent.lower = b.buddy ∧ b.parent.upper = b) := by
  rcases h.buddy_cases with ⟨he, _⟩ | ⟨he, _⟩
  · left
    have hmin : min b.base b.buddy.base = b.base := Nat.min_eq_left (by omega)
    constructor
    · simp only [Block.lower, Block.parent, hmin, Nat.add_sub_cancel]
    · simp only [Block.upper, Block.parent, hmin, Nat.add_sub_cancel]
      rw [← he]
      rfl
  · right
    have hmin : min b.base b.buddy.base = b.buddy.base := min_eq_right (by omega)
    constructor
    · simp only [Block.lower, Block.parent, hmin, Nat.add_sub_cancel]
      rfl
    · simp only [Block.upper, Block.parent, hmin, Nat.add_sub_cancel]
      rw [← he]

/-- Conversely, the two halves of an aligned block are each other's buddy. -/
theorem Aligned.buddy_lower (hpos : 0 < b.exp) : b.lower.buddy = b.upper := by
  rcases h.lower.buddy_cases with ⟨he, _⟩ | ⟨he, hd⟩
  · show (⟨b.lower.buddy.base, b.exp - 1⟩ : Block) = b.upper
    rw [he]
    rfl
  exfalso
  -- the lower half would be the upper half of its parent, against the alignment of `b`
  have h2 : 2 ^ (b.exp - 1 + 1) ∣ b.base := by rw [Nat.sub_add_cancel hpos]; exact h
  have hb : b.base = b.lower.buddy.base + 2 ^ (b.exp - 1) := he
  have hd' : 2 ^ (b.exp - 1 + 1) ∣ b.lower.buddy.base := hd
  rw [hb] at h2
  have h3 := (Nat.dvd_add_right hd').mp h2
  have h4 := Nat.le_of_dvd (Nat.two_pow_pos _) h3
  have h5 := two_pow_pred_add hpos
  rw [Nat.sub_add_cancel hpos] at h4
  omega

theorem Aligned.within_parent : b.Within b.parent := by
  have hpos : 0 < b.parent.exp := Nat.succ_pos _
  rcases h.parent_halves with ⟨hl, _⟩ | ⟨_, hu⟩
  · have := lower_within hpos
    rwa [hl] at this
  · have := upper_within hpos
    rwa [hu] at this

end

/-- A strictly larger aligned block that meets `b` holds the whole parent of `b`. -/
theorem Aligned.parent_within (hb : b.Aligned) (hc : c.Aligned) (he : b.exp < c.exp) (hbx : b.Has x)
    (hcx : c.Has x) : b.parent.Within c :=
  hb.parent.nested hc he (hb.within_parent.has hbx) hcx

end Block

open Nat List Block

/-! ## Tilings -/

/-- The blocks of `bs` are pairwise apart and cover exactly the addresses of `S`. -/
structure Tiles (S : Set Nat) (bs : List Block) : Prop where
  apart : bs.Pairwise Apart
  cover : ∀ x, x ∈ S ↔ ∃ b ∈ bs, b.Has x

variable {S T : Set Nat} {bs cs : List Block}

theorem Tiles.perm (h : Tiles S bs) (hp : bs.Perm cs) : Tiles S cs where
  apart := h.apart.perm hp Apart.symm
  cover x := by rw [h.cover x]; simp only [hp.mem_iff]

variable {b c : Block}

/-- A block may be replaced by its two halves, and two halves by their block. -/
theorem Tiles.split (hb : 0 < b.exp) : Tiles S (b :: bs) ↔ Tiles S (b.lower :: b.upper :: bs) := by
  have hcov : ∀ x, (∃ c ∈ b :: bs, c.Has x) ↔ ∃ c ∈ b.lower :: b.upper :: bs, c.Has x := by
    intro x
    simp only [mem_cons, exists_eq_or_imp, has_iff_halves hb, or_assoc]
  constructor
  · rintro ⟨hap, hc⟩
    refine ⟨?_, fun x => (hc x).trans (hcov x)⟩
    rw [pairwise_cons] at hap
    rw [pairwise_cons, pairwise_cons]
    refine ⟨?_, fun c hcs => (hap.1 c hcs).mono (upper_within hb), hap.2⟩
    intro c hcs
    rcases mem_cons.mp hcs with rfl | hcs
    · exact lower_apart_upper b
    · exact (hap.1 c hcs).mono (lower_within hb)
  · rintro ⟨hap, hc⟩
    refine ⟨?_, fun x => (hc x).trans (hcov x).symm⟩
    rw [pairwise_cons, pairwise_cons] at hap
    refine pairwise_cons.mpr ⟨fun c hcs => ?_, hap.2.2⟩
    by_contra hn
    obtain ⟨x, hbx, hcx⟩ := not_apart_iff.mp hn
    rcases (has_iff_halves hb).mp hbx with hx | hx
    · exact (hap.1 c (mem_cons_of_mem _ hcs)).not_has hx hcx
    · exact (hap.2.1 c hcs).not_has hx hcx

instance : Std.Symm Apart := ⟨fun _ _ => .symm⟩

/-- Two tiles that share an address are the same tile. -/
theorem Tiles.eq_of_has (h : Tiles S bs) (hb : b ∈ bs) (hc : c ∈ bs) {x : Nat} (hbx : b.Has x)
    (hcx : c.Has x) : b = c := by
  by_contra hne
  exact (h.apart.forall hb hc hne).not_has hbx hcx

/-- A tile occurs once in its list. -/
theorem Tiles.nodup (h : Tiles S bs) : bs.Nodup := by
  refine h.apart.imp ?_
  intro b c hab he
  subst he
  exact b.not_apart_self hab

/-- Two distinct tiles start at distinct addresses. -/
theorem Tiles.base_ne_head (h : Tiles S (b :: bs)) (hc : c ∈ bs) : c.base ≠ b.base := by
  intro he
  have hap := (pairwise_cons.mp h.apart).1 c hc
  exact hap.not_has b.has_base (he ▸ c.has_base)

/-! ## Fully coalesced tilings

`U` is a set of tiles with exponents in `[lo, hi]`. It is *coalesced* when it never holds both halves of a
block it could have kept whole. -/

/-- The addresses of `b` all lie in `F`. -/
def Block.In (b : Block) (F : Set Nat) : Prop := ∀ x, b.Has x → x ∈ F

/-- The tiles of `U` are aligned, of exponent between `lo` and `hi`, pairwise apart, and cover `F`. -/
structure AlignedTiling (lo hi : Nat) (F : Set Nat) (U : Set Block) : Prop where
  aligned : ∀ b ∈ U, b.Aligned
  lo_le : ∀ b ∈ U, lo ≤ b.exp
  le_hi : ∀ b ∈ U, b.exp ≤ hi
  apart : ∀ b ∈ U, ∀ c ∈ U, b ≠ c → b.Apart c
  cover : ∀ x, x ∈ F ↔ ∃ b ∈ U, b.Has x

/-- No tile below the largest size has its buddy among the tiles. -/
def Coalesced (hi : Nat) (U : Set Block) : Prop := ∀ b ∈ U, b.exp < hi → b.buddy ∉ U

variable {lo hi : Nat} {F : Set Nat} {U V : Set Block}

section
variable (h : AlignedTiling lo hi F U)
include h

theorem AlignedTiling.tile_in (hb : b ∈ U) : b.In F :=
  fun x hx => (h.cover x).mpr ⟨b, hb, hx⟩

/-- **Completeness.** In a coalesced tiling, every aligned block of the covered set (of a size the tiling
    may use) lies inside one tile. By induction on the exponent: each half lies in a tile, and were both
    tiles no larger than the halves they would be a pair of buddies. -/
theorem exists_tile_above (hc : Coalesced hi U) :
    ∀ (e : Nat) (b : Block), b.exp = lo + e → b.exp ≤ hi → b.Aligned → b.In F →
      ∃ t ∈ U, b.Within t := by
  intro e
  induction e with
  | zero =>
    intro b he _ hal hin
    obtain ⟨t, ht, htx⟩ := (h.cover b.base).mp (hin _ b.has_base)
    have hle : b.exp ≤ t.exp := by have := h.lo_le t ht; omega
    exact ⟨t, ht, hal.nested (h.aligned t ht) hle b.has_base htx⟩
  | succ e ih =>
    intro b he hhi hal hin
    have hpos : 0 < b.exp := by omega
    have hlexp : b.lower.exp = b.exp - 1 := rfl
    have huexp : b.upper.exp = b.exp - 1 := rfl
    obtain ⟨s, hs, hsw⟩ := ih b.lower (by omega) (by omega) hal.lower
      (fun x hx => hin x ((lower_within hpos).has hx))
    obtain ⟨t, ht, htw⟩ := ih b.upper (by omega) (by omega) hal.upper
      (fun x hx => hin x ((upper_within hpos).has hx))
    -- a tile at least as large as `b` that meets `b` holds all of it
    have hbig : ∀ u ∈ U, ∀ x, b.Has x → u.Has x → b.exp ≤ u.exp → ∃ t ∈ U, b.Within t :=
      fun u hu x hbx hux hle => ⟨u, hu, hal.nested (h.aligned u hu) hle hbx hux⟩
    by_cases hse : b.exp ≤ s.exp
    · exact hbig s hs _ ((lower_within hpos).has b.lower.has_base) (hsw.has b.lower.has_base) hse
    by_cases hte : b.exp ≤ t.exp
    · exact hbig t ht _ ((upper_within hpos).has b.upper.has_base) (htw.has b.upper.has_base) hte
    have h1 := hsw.exp_le
    have h2 := htw.exp_le
    have hsl : s = b.lower :=
      (h.aligned s hs).eq_of_exp_eq hal.lower (by omega) (hsw.has b.lower.has_base) b.lower.has_base
    have htu : t = b.upper :=
      (h.aligned t ht).eq_of_exp_eq hal.upper (by omega) (htw.has b.upper.has_base) b.upper.has_base
    refine absurd ht (?_ : t ∉ U)
    rw [htu, ← hal.buddy_lower hpos, ← hsl]
    exact hc s hs (by omega)

/-- **Canonicity.** The tiles of a coalesced tiling are exactly the maximal aligned blocks of the covered
    set: those of the largest size, and those whose parent leaves the set. -/
theorem mem_iff_maximal (hc : Coalesced hi U) (b : Block) :
    b ∈ U ↔ b.Aligned ∧ lo ≤ b.exp ∧ b.exp ≤ hi ∧ b.In F ∧ (b.exp < hi → ¬ b.parent.In F) := by
  constructor
  · intro hb
    refine ⟨h.aligned b hb, h.lo_le b hb, h.le_hi b hb, h.tile_in hb, fun hlt hin => ?_⟩
    have hal := h.aligned b hb
    have hlo := h.lo_le b hb
    have hpe : b.parent.exp = b.exp + 1 := rfl
    obtain ⟨t, ht, hw⟩ := exists_tile_above h hc (b.parent.exp - lo) b.parent (by omega) (by omega)
      hal.parent hin
    have hne : b ≠ t := by
      rintro rfl
      have := hw.exp_le
      omega
    exact (h.apart b hb t ht hne).not_has b.has_base (hw.has (hal.within_parent.has b.has_base))
  · rintro ⟨hal, hlo, hhi, hin, hmax⟩
    obtain ⟨t, ht, hw⟩ := exists_tile_above h hc (b.exp - lo) b (by omega) hhi hal hin
    have hbt := hw.has b.has_base
    by_cases he : b.exp = t.exp
    · rw [hal.eq_of_exp_eq (h.aligned t ht) he b.has_base hbt]
      exact ht
    · have hlt : b.exp < t.exp := by have := hw.exp_le; omega
      have hp := hal.parent_within (h.aligned t ht) hlt b.has_base hbt
      have hthi := h.le_hi t ht
      exact absurd (fun x hx => h.tile_in ht x (hp.has hx)) (hmax (by omega))

end

/-- Two coalesced tilings of one set have the same tiles. -/
theorem tiles_eq_of_coalesced (hU : AlignedTiling lo hi F U) (hV : AlignedTiling lo hi F V)
    (hcU : Coalesced hi U) (hcV : Coalesced hi V) : U = V := by
  ext b
  rw [mem_iff_maximal hU hcU, mem_iff_maximal hV hcV]

end Caffeinix.Tiling
