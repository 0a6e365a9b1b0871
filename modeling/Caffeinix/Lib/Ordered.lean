import Mathlib.Data.List.Basic
import Mathlib.Order.Lattice

/-!
# `Lib.Ordered` — lists kept in the order of a key

A list in the order of a key, into which an element goes behind those with the same key, and from which what is
due is taken at the front.
-/

namespace Caffeinix.Ordered

open List

variable {α κ : Type*} [LinearOrder κ] {key key' : α → κ} {l : List α} {x : α} {k : κ}

/-- The list is in the order of the key. -/
def Sorted (key : α → κ) (l : List α) : Prop := l.Pairwise fun x y => key x ≤ key y

/-- The element goes behind all whose key is at most `k`. -/
def insertBehind (key : α → κ) (l : List α) (x : α) (k : κ) : List α :=
  l.takeWhile (key · ≤ k) ++ x :: l.dropWhile (key · ≤ k)

/-- Only the keys of what is on the list matter. -/
theorem Sorted.congr (h : Sorted key l) (hl : ∀ y ∈ l, key' y = key y) : Sorted key' l := by
  refine List.Pairwise.imp_of_mem (fun {a b} ha hb hab => ?_) h
  rw [hl a ha, hl b hb]
  exact hab

theorem insertBehind_perm : (insertBehind key l x k).Perm (x :: l) := by
  refine perm_middle.trans (.cons x ?_)
  rw [takeWhile_append_dropWhile]

/-- What is behind the first later one is later. -/
theorem Sorted.lt_of_mem_dropWhile (h : Sorted key l) {y : α} (hy : y ∈ l.dropWhile (key · ≤ k)) :
    k < key y := by
  induction l with
  | nil => exact absurd hy not_mem_nil
  | cons z l ih =>
    obtain ⟨hz, hl⟩ := pairwise_cons.1 h
    by_cases hk : key z ≤ k
    · rw [dropWhile_cons_of_pos (by simpa using hk)] at hy
      exact ih hl hy
    · rw [dropWhile_cons_of_neg (by simpa using hk)] at hy
      rcases mem_cons.1 hy with rfl | hy
      · exact lt_of_not_ge hk
      · exact lt_of_lt_of_le (lt_of_not_ge hk) (hz y hy)

/-- The list stays in order, also when the new element gets its key only now. -/
theorem Sorted.insertBehind (h : Sorted key l) (hx : key' x = k) (hl : ∀ y ∈ l, key' y = key y) :
    Sorted key' (insertBehind key l x k) := by
  have hkey : Sorted key' l := h.congr hl
  refine pairwise_append.2 ⟨hkey.sublist (takeWhile_sublist _), ?_, ?_⟩
  · refine pairwise_cons.2 ⟨fun y hy => ?_, hkey.sublist (dropWhile_sublist _)⟩
    rw [hx, hl y ((dropWhile_sublist _).mem hy)]
    exact le_of_lt (h.lt_of_mem_dropWhile hy)
  · intro y hy z hz
    have hyk : key y ≤ k := by
      have hall := all_takeWhile (p := (key · ≤ k)) (l := l)
      simpa using all_eq_true.1 hall y hy
    rw [hl y ((takeWhile_sublist _).mem hy)]
    rcases mem_cons.1 hz with rfl | hz
    · rw [hx]; exact hyk
    · rw [hl z ((dropWhile_sublist _).mem hz)]
      exact le_trans hyk (le_of_lt (h.lt_of_mem_dropWhile hz))

/-- When the first is not due, none is. -/
theorem Sorted.filter_eq_nil (h : Sorted key (x :: l)) (hk : k < key x) :
    (x :: l).filter (key · ≤ k) = [] := by
  rw [filter_eq_nil_iff]
  intro y hy
  have hxy : key x ≤ key y := by
    rcases mem_cons.1 hy with rfl | hy
    · exact le_refl _
    · exact (pairwise_cons.1 h).1 y hy
  simpa using lt_of_lt_of_le hk hxy

end Caffeinix.Ordered
