import Mathlib.Combinatorics.Pigeonhole
import Mathlib.Data.Nat.Find
import Mathlib.Logic.Function.Iterate

/-!
# `Lib.Chains` — following parents to a root

Everybody has a parent; the parent of the root is the root. `Reaches` says that following parents from somebody
ends at the root, `ReachesWithout` that it does so without meeting somebody else. `meets` is the search for
somebody along the chain, with a limit on its steps. The lemmas say when the limit is enough, and what giving
somebody another parent does.
-/

namespace Caffeinix.Chains

open Nat Finset

variable {α : Type*} {parent parent' : α → α} {root a x : α}

/-- Following parents ends at the root. -/
inductive Reaches (parent : α → α) (root : α) : α → Prop
  | root : Reaches parent root root
  | up {a : α} (h : Reaches parent root (parent a)) : Reaches parent root a

/-- It does so without meeting `x`. -/
inductive ReachesWithout (parent : α → α) (root x : α) : α → Prop
  | root (hne : root ≠ x) : ReachesWithout parent root x root
  | up {a : α} (hne : a ≠ x) (h : ReachesWithout parent root x (parent a)) : ReachesWithout parent root x a

/-- Is `x` on the chain from `a`? No answer if the limit is reached. -/
def meets [DecidableEq α] (parent : α → α) (x : α) : Nat → α → Option Bool
  | 0, _ => none
  | limit + 1, a => if a = x then some true else if parent a = a then some false else meets parent x limit (parent a)

section
variable (h : Reaches parent root a)
include h

/-- Only the root is its own parent. -/
theorem Reaches.fixed (hfix : parent a = a) : a = root := by
  induction h with
  | root => rfl
  | @up a h ih =>
    have hroot : parent a = root := ih (by rw [hfix, hfix])
    exact hfix.symm.trans hroot

/-- The parent of somebody whose chain ends at the root. -/
theorem Reaches.above (hroot : parent root = root) : Reaches parent root (parent a) := by
  cases h with
  | root =>
    rw [hroot]
    exact .root
  | up h => exact h

/-- Parents that are the same along the chain. -/
theorem Reaches.congr_on {p : α → Prop} (hp : p a)
    (hclosed : ∀ b, p b → b ≠ root →
    p (parent b)) (hsame : ∀ b, p b → parent' b = parent b) : Reaches parent' root a := by
  induction h with
  | root => exact .root
  | @up a h ih =>
    by_cases ha : a = root
    · rw [ha]
      exact .root
    · refine .up ?_
      rw [hsame a hp]
      exact ih (hclosed a hp ha)

omit h in
theorem ReachesWithout.reaches (h : ReachesWithout parent root x a) (hsame : ∀ b, b ≠ x → parent' b = parent b) :
    Reaches parent' root a := by
  induction h with
  | root => exact .root
  | @up a hne h ih =>
    refine .up ?_
    rw [hsame a hne]
    exact ih

/-- **A new parent for `x`**, whose chain does not meet `x`. -/
theorem Reaches.reparent {y : α} (hy : ReachesWithout parent root x y) (hx : parent' x = y)
    (hsame : ∀ b, b ≠ x → parent' b = parent b) : Reaches parent' root a := by
  induction h with
  | root => exact .root
  | @up a h ih =>
    by_cases ha : a = x
    · rw [ha]
      refine .up ?_
      rw [hx]
      exact hy.reaches hsame
    · refine .up ?_
      rw [hsame a ha]
      exact ih

end

/-! ## The search -/

section Search

variable [DecidableEq α]

theorem ReachesWithout.of_meets (hroot : parent root = root) : ∀ {limit : Nat} {a : α}, Reaches parent root a →
    meets parent x limit a = some false → ReachesWithout parent root x a := by
  intro limit
  induction limit with
  | zero => exact nofun
  | succ limit ih =>
    intro a hreach h
    unfold meets at h
    by_cases hax : a = x
    · rw [if_pos hax] at h
      cases h
    rw [if_neg hax] at h
    by_cases hfix : parent a = a
    · obtain rfl : a = root := hreach.fixed hfix
      exact .root hax
    · rw [if_neg hfix] at h
      exact .up hax (ih (hreach.above hroot) h)

theorem meets_isSome_of_iterate {k : Nat} (hroot : parent root = root) : ∀ {limit : Nat} {a : α},
    parent^[k] a = root → k < limit → (meets parent x limit a).isSome := by
  induction k with
  | zero =>
    intro limit a hk hlimit
    obtain ⟨limit, rfl⟩ := exists_eq_succ_of_ne_zero (by omega : limit ≠ 0)
    obtain rfl : a = root := hk
    unfold meets
    split_ifs
    · rfl
    · rfl
  | succ k ih =>
    intro limit a hk hlimit
    obtain ⟨limit, rfl⟩ := exists_eq_succ_of_ne_zero (by omega : limit ≠ 0)
    unfold meets
    split_ifs
    · rfl
    · rfl
    · exact ih hk (by omega)

end Search

theorem Reaches.iterate (h : Reaches parent root a) : ∃ k, parent^[k] a = root := by
  induction h with
  | root => exact ⟨0, rfl⟩
  | up h ih =>
    obtain ⟨k, hk⟩ := ih
    exact ⟨k + 1, hk⟩

/-- Among `n` the root is less than `n` steps away: the chain up to it does not meet anybody twice. -/
theorem iterate_lt {parent : Nat → Nat} {root a n : Nat} (h : ∃ k, parent^[k] a = root)
    (hn : ∀ k, parent^[k] a < n) : ∃ k < n, parent^[k] a = root := by
  classical
  refine ⟨Nat.find h, ?_, Nat.find_spec h⟩
  by_contra hlong
  have hmaps : ∀ k ∈ Finset.range (n + 1), parent^[k] a ∈ Finset.range n :=
    fun k _ => mem_range.mpr (hn k)
  obtain ⟨i, hi, j, hj, hne, heq⟩ := exists_ne_map_eq_of_card_lt_of_maps_to
    (by rw [card_range, card_range]; exact lt_succ_self n) hmaps
  -- a chain that meets somebody twice can be cut
  have hcut : ∀ i j, i < j → j ≤ n → parent^[i] a = parent^[j] a → False := by
    intro i j hij hjn heq
    have hshort : parent^[Nat.find h - j + i] a = root := by
      rw [Function.iterate_add_apply, heq, ← Function.iterate_add_apply,
        Nat.sub_add_cancel (by omega : j ≤ Nat.find h)]
      exact Nat.find_spec h
    exact Nat.find_min h (by omega) hshort
  have hi := mem_range.mp hi
  have hj := mem_range.mp hj
  rcases lt_or_gt_of_ne hne with hij | hij
  · exact hcut i j hij (by omega) heq
  · exact hcut j i hij (by omega) heq.symm

end Caffeinix.Chains
