import Mathlib.Data.List.Pairwise
import Mathlib.Order.Nat

/-!
# `Lib.Intervals` — sorted lists of disjoint intervals

A list whose elements carry half-open intervals `[lo a, hi a)`. `Chain lo hi b l e` says that the intervals
are non-empty, sorted, disjoint and lie between `b` and `e`. It is stated along the list with the lower bound
carried, so that functions which scan the list from the left are proved by one induction; `chain_append`
cuts a chain at any position.
-/

namespace Caffeinix.Intervals

open List

variable {α : Type} {lo hi : α → Nat} {b b' e e' m x : Nat} {l r : List α} {a c : α}

/-- Non-empty, sorted and disjoint intervals between `b` and `e`. -/
def Chain (lo hi : α → Nat) : Nat → List α → Nat → Prop
  | b, [], e => b ≤ e
  | b, a :: l, e => b ≤ lo a ∧ lo a < hi a ∧ Chain lo hi (hi a) l e

@[simp] theorem chain_cons :
    Chain lo hi b (a :: l) e ↔ b ≤ lo a ∧ lo a < hi a ∧ Chain lo hi (hi a) l e := .rfl

/-- The interval of `a` has the point `x`. -/
def Meets (lo hi : α → Nat) (a : α) (x : Nat) : Prop := lo a ≤ x ∧ x < hi a

section
variable (h : Chain lo hi b l e)
include h

theorem Chain.le : b ≤ e := by
  induction l generalizing b with
  | nil => exact h
  | cons a l ih =>
    obtain ⟨h1, h2, h3⟩ := h
    exact h1.trans (h2.le.trans (ih h3))

theorem Chain.mono_left (hb : b' ≤ b) : Chain lo hi b' l e := by
  cases l with
  | nil => exact hb.trans h
  | cons => exact ⟨hb.trans h.1, h.2⟩

omit h in
theorem chain_append : Chain lo hi b (l ++ r) e ↔ ∃ m, Chain lo hi b l m ∧ Chain lo hi m r e := by
  induction l generalizing b with
  | nil =>
    constructor
    · intro h
      exact ⟨b, Nat.le_refl b, h⟩
    · rintro ⟨m, hm, h⟩
      exact h.mono_left hm
  | cons a l ih =>
    simp only [cons_append, chain_cons, ih]
    constructor
    · rintro ⟨h1, h2, m, h3, h4⟩
      exact ⟨m, ⟨h1, h2, h3⟩, h4⟩
    · rintro ⟨m, ⟨h1, h2, h3⟩, h4⟩
      exact ⟨h1, h2, m, h3, h4⟩

theorem Chain.mem (ha : a ∈ l) : b ≤ lo a ∧ lo a < hi a ∧ hi a ≤ e := by
  induction l generalizing b with
  | nil => exact absurd ha (by simp)
  | cons c l ih =>
    obtain ⟨h1, h2, h3⟩ := h
    cases ha with
    | head => exact ⟨h1, h2, h3.le⟩
    | tail _ hl =>
      obtain ⟨h4, h5, h6⟩ := ih h3 hl
      exact ⟨h1.trans (h2.le.trans h4), h5, h6⟩

/-- The upper bound can come down to anything past the intervals. -/
theorem Chain.shrink (hb : b ≤ m) (hl : ∀ a ∈ l, hi a ≤ m) : Chain lo hi b l m := by
  induction l generalizing b with
  | nil => exact hb
  | cons a l ih =>
    refine ⟨h.1, h.2.1, ih h.2.2 (hl a (mem_cons_self ..)) fun c hc => ?_⟩
    exact hl c (mem_cons_of_mem _ hc)

/-- The lower bound can go up to anything before the intervals. -/
theorem Chain.raise (he : m ≤ e) (hl : ∀ a ∈ l, m ≤ lo a) : Chain lo hi m l e := by
  cases l with
  | nil => exact he
  | cons a => exact ⟨hl a (mem_cons_self ..), h.2⟩

theorem Chain.sorted : l.Pairwise fun a c => hi a ≤ lo c := by
  induction l generalizing b with
  | nil => exact List.Pairwise.nil
  | cons a l ih => exact List.Pairwise.cons (fun c hc => (h.2.2.mem hc).1) (ih h.2.2)

omit h in
theorem Chain.of_sorted (hs : l.Pairwise fun a c => hi a ≤ lo c) (hne : ∀ a ∈ l, lo a < hi a)
    (hlo : ∀ a ∈ l, b ≤ lo a) (hhi : ∀ a ∈ l, hi a ≤ e) (hbe : b ≤ e) : Chain lo hi b l e := by
  induction l generalizing b with
  | nil => exact hbe
  | cons a l ih =>
    obtain ⟨ha, hl⟩ := pairwise_cons.1 hs
    refine ⟨hlo a mem_cons_self, hne a mem_cons_self, ih hl ?_ ha ?_ (hhi a mem_cons_self)⟩
    · exact fun c hc => hne c (mem_cons_of_mem _ hc)
    · exact fun c hc => hhi c (mem_cons_of_mem _ hc)

/-- One interval at most has a given point. -/
theorem Chain.unique (ha : a ∈ l) (hc : c ∈ l) (hax : Meets lo hi a x) (hcx : Meets lo hi c x) : a = c := by
  induction l generalizing b with
  | nil => exact absurd ha (by simp)
  | cons d l ih =>
    -- an interval of the tail starts past the head
    have hfar : ∀ t ∈ l, ¬ (Meets lo hi d x ∧ Meets lo hi t x) := fun t ht hboth =>
      absurd (hboth.1.2.trans_le ((h.2.2.mem ht).1.trans hboth.2.1)) (Nat.lt_irrefl _)
    cases ha with
    | head =>
      cases hc with
      | head => rfl
      | tail _ hc => exact absurd ⟨hax, hcx⟩ (hfar c hc)
    | tail _ ha =>
      cases hc with
      | head => exact absurd ⟨hcx, hax⟩ (hfar a ha)
      | tail _ hc => exact ih h.2.2 ha hc

end

end Caffeinix.Intervals
