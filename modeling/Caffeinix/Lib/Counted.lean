import Mathlib.Data.Multiset.AddSub
import Mathlib.Data.Multiset.MapFold

/-!
# `Lib.Counted` — reference counts and the references they count

A table of counters is `Counted` by a multiset of references when each counter is the number of references to
its object. Taking and dropping a reference moves one element in or out of the multiset, so an operation is
right when the references it leaves behind are those somebody still holds: moving a reference from one holder
to another is an equation between multisets.
-/

namespace Caffeinix

open Function Multiset

section counters

variable {α : Type*} [DecidableEq α] {refs : α → Nat} {held : Multiset α} {a : α}

/-- Each counter is the number of references to its object. -/
def Counted (refs : α → Nat) (held : Multiset α) : Prop := ∀ a, refs a = held.count a

/-- Taking a reference. -/
theorem Counted.take (h : Counted refs held) (a : α) :
    Counted (Function.update refs a (refs a + 1)) (a ::ₘ held) := by
  intro b
  by_cases hb : b = a
  · rw [hb, update_self, count_cons_self, h a]
  · rw [update_of_ne hb, count_cons_of_ne hb, h b]

/-- Dropping a reference. -/
theorem Counted.drop (h : Counted refs (a ::ₘ held)) :
    Counted (Function.update refs a (refs a - 1)) held := by
  intro b
  by_cases hb : b = a
  · rw [hb, update_self, h a, count_cons_self, Nat.add_sub_cancel]
  · rw [update_of_ne hb, h b, count_cons_of_ne hb]

/-- The first reference to a new object. -/
theorem Counted.first (h : Counted refs held) (ha : refs a = 0) :
    Counted (Function.update refs a 1) (a ::ₘ held) := by
  have := h.take a
  rwa [ha] at this

/-- An object somebody refers to has a positive count. -/
theorem Counted.pos (h : Counted refs held) (ha : a ∈ held) : 0 < refs a := by
  rw [h a]
  exact count_pos.mpr ha

end counters

section holders

variable {α β : Type*} {a : α}

/-- The references the elements of a list hold. -/
def refsOf (f : β → α) (l : List β) : Multiset α := (l.map f : List α)

@[simp] theorem refsOf_cons (f : β → α) (x : β) (l : List β) : refsOf f (x :: l) = f x ::ₘ refsOf f l := rfl

variable {f : β → α} {l : List β} {x : β}

theorem mem_refsOf : a ∈ refsOf f l ↔ ∃ x ∈ l, f x = a := by
  unfold refsOf
  rw [mem_coe, List.mem_map]

/-- A reference is counted once for each holder. -/
theorem count_refsOf [DecidableEq α] (f : β → α) (l : List β) (a : α) :
    (refsOf f l).count a = l.countP fun x => f x = a := by
  unfold refsOf
  rw [coe_count, List.count, List.countP_map]
  rfl

theorem mem_refsOf_of_mem (h : x ∈ l) : f x ∈ refsOf f l :=
  mem_refsOf.mpr ⟨x, h, rfl⟩

/-- What is left when one holder goes away. -/
theorem refsOf_erase [DecidableEq β] (h : x ∈ l) : refsOf f l = f x ::ₘ refsOf f (l.erase x) := by
  unfold refsOf
  rw [cons_coe, ← List.map_cons]
  exact coe_eq_coe.mpr ((List.perm_cons_erase h).map f)

/-- Holders may change as long as what they refer to does not. -/
theorem refsOf_map {g : β → β} (h : ∀ x ∈ l, f (g x) = f x) :
    refsOf f (l.map g) = refsOf f l := by
  unfold refsOf
  rw [List.map_map]
  exact congrArg _ (List.map_congr_left h)

end holders

end Caffeinix
