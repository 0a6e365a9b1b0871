import Mathlib.Algebra.BigOperators.Finprod

/-!
# `Lib.Weights` — how much all of them have together

Each of a family has some number of things, and all but finitely many have none; `Weighs w n` says that together
they have `n`. A counter of references is right when it weighs those who hold them. When one of the family gets
or loses something the total changes by as much, and when two of them exchange something it does not change.
-/

namespace Caffeinix

open Finset Function

variable {α : Type*} {w w' : α → Nat} {n m : Nat}

/-- Together they have `n`. -/
def Weighs (w : α → Nat) (n : Nat) : Prop := (support w).Finite ∧ ∑ᶠ a, w a = n

theorem Weighs.congr (h : Weighs w n) (he : ∀ a, w' a = w a) : Weighs w' n := by
  rw [funext he]
  exact h

theorem weighs_none (h : ∀ a, w a = 0) : Weighs w 0 := by
  have hw : w = fun _ => 0 := funext h
  rw [hw]
  exact ⟨by simp, by simp⟩

theorem Weighs.unique (h : Weighs w n) (h' : Weighs w m) : n = m := h.2.symm.trans h'.2

variable {a : α}

section
variable (h : Weighs w n) (hothers : ∀ b, b ≠ a → w' b = w b)
include h hothers

/-- One of them gets or loses something. -/
theorem Weighs.changed : ∃ m, Weighs w' m ∧ m + w a = n + w' a := by
  classical
  obtain ⟨hfinite, hsum⟩ := h
  have hfinite' : (support w').Finite := by
    refine (hfinite.insert a).subset fun b hb => ?_
    by_cases hba : b = a
    · exact .inl hba
    · refine .inr ?_
      rw [mem_support, hothers b hba] at hb
      exact hb
  -- both sums run over the same finite set, and differ at `a`
  obtain ⟨s, hs, ha⟩ : ∃ s : Finset α, (support w ∪ support w') ⊆ s ∧ a ∈ s :=
    ⟨insert a ((hfinite.union hfinite').toFinset), by simp, mem_insert_self _ _⟩
  have hw := finsum_eq_sum_of_support_subset w (Set.subset_union_left.trans hs)
  have hw' := finsum_eq_sum_of_support_subset w' (Set.subset_union_right.trans hs)
  have hrest : ∑ b ∈ s.erase a, w' b = ∑ b ∈ s.erase a, w b :=
    sum_congr rfl fun b hb => hothers b (ne_of_mem_erase hb)
  rw [← add_sum_erase s w ha] at hw
  rw [← add_sum_erase s w' ha, hrest] at hw'
  exact ⟨_, ⟨hfinite', rfl⟩, by omega⟩

theorem Weighs.change (hm : m + w a = n + w' a) : Weighs w' m := by
  obtain ⟨k, hk, he⟩ := h.changed hothers
  have hkm : k = m := by omega
  rwa [hkm] at hk

end

/-- Two of them do. -/
theorem Weighs.change_two (h : Weighs w n) {b : α} (hab : a ≠ b) (hothers : ∀ c, c ≠ a → c ≠ b → w' c = w c)
    (hm : m + w a + w b = n + w' a + w' b) : Weighs w' m := by
  classical
  have hfirst : ∀ c, c ≠ a → update w a (w' a) c = w c := fun c hc => update_of_ne hc _ _
  obtain ⟨k, hk, he⟩ := h.changed hfirst
  rw [update_self] at he
  refine hk.change (a := b) (fun c hcb => ?_) ?_
  · by_cases hca : c = a
    · rw [hca, update_self]
    · rw [update_of_ne hca, hothers c hca hcb]
  · rw [update_of_ne hab.symm]
    omega

/-- What one of them has is part of it. -/
theorem Weighs.le (h : Weighs w n) (a : α) : w a ≤ n := by
  classical
  rw [← h.2, finsum_eq_sum_of_support_subset w (s := insert a h.1.toFinset) (by simp)]
  exact single_le_sum (fun _ _ => Nat.zero_le _) (mem_insert_self a _)

theorem Weighs.zero (h : Weighs w 0) (a : α) : w a = 0 := Nat.le_zero.1 (h.le a)

/-- Somebody has something. -/
theorem Weighs.exists_pos (h : Weighs w n) (hn : 0 < n) : ∃ a, 0 < w a := by
  by_contra hnone
  have hzero := h.unique (weighs_none fun a => Nat.eq_zero_of_not_pos fun ha => hnone ⟨a, ha⟩)
  omega

end Caffeinix
