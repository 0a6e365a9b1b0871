import Mathlib.Data.List.Nodup
import Mathlib.Data.List.Perm.Basic

/-!
# `Lib.Census` — how many there are

`Numbers p n` says that exactly `n` elements satisfy `p`. A counter that somebody keeps is right when it numbers
those it is meant to count; the lemmas say what happens to it when one of them comes or goes, or several at once.
-/

namespace Caffeinix

open List

variable {α : Type*} {p q : α → Prop} {n : Nat}

/-- Exactly `n` elements satisfy `p`. -/
def Numbers (p : α → Prop) (n : Nat) : Prop := ∃ l : List α, l.Nodup ∧ (∀ a, a ∈ l ↔ p a) ∧ l.length = n

theorem Numbers.congr (h : Numbers p n) (hpq : ∀ a, q a ↔ p a) : Numbers q n := by
  obtain ⟨l, hl, hm, hn⟩ := h
  exact ⟨l, hl, fun a => (hm a).trans (hpq a).symm, hn⟩

theorem numbers_zero : Numbers p 0 ↔ ∀ a, ¬p a := by
  constructor
  · rintro ⟨l, -, hm, hn⟩ a ha
    rw [eq_nil_of_length_eq_zero hn] at hm
    exact absurd ((hm a).2 ha) not_mem_nil
  · intro h
    exact ⟨[], nodup_nil, fun a => iff_of_false not_mem_nil (h a), rfl⟩

variable {a : α} {l : List α}

section
variable (h : Numbers p n)
include h

theorem Numbers.pos (ha : p a) : 0 < n := by
  obtain ⟨l, -, hm, hn⟩ := h
  rw [← hn]
  exact length_pos_of_mem ((hm a).2 ha)

/-- Somebody new. -/
theorem Numbers.add (ha : ¬p a) (hq : ∀ b, q b ↔ b = a ∨ p b) : Numbers q (n + 1) := by
  obtain ⟨l, hl, hm, hn⟩ := h
  refine ⟨a :: l, nodup_cons.2 ⟨fun hmem => ha ((hm a).1 hmem), hl⟩, fun b => ?_, by rw [length_cons, hn]⟩
  rw [mem_cons, hm, hq]

/-- Several of them leave. -/
theorem Numbers.remove_all [DecidableEq α] (hl : l.Nodup) (hp : ∀ a ∈ l, p a) (hq : ∀ a, q a ↔ a ∉ l ∧ p a) :
    l.length ≤ n ∧ Numbers q (n - l.length) := by
  obtain ⟨m, hm, hmem, hn⟩ := h
  have hrest : (m.filter (· ∉ l)).Nodup := hm.filter _
  -- those who leave and those who stay are all there are
  have hperm : m.Perm (l ++ m.filter (· ∉ l)) := by
    refine (perm_ext_iff_of_nodup hm (nodup_append.2 ⟨hl, hrest, ?_⟩)).2 fun a => ?_
    · rintro a ha b hb rfl
      simp [ha] at hb
    · by_cases ha : a ∈ l
      · simp [ha, hmem, hp a ha]
      · simp [ha]
  have hlen := hperm.length_eq
  rw [length_append, hn] at hlen
  refine ⟨by omega, m.filter (· ∉ l), hrest, fun a => ?_, by omega⟩
  rw [hq, mem_filter, hmem, and_comm]
  simp

/-- One of them leaves. -/
theorem Numbers.remove [DecidableEq α] (ha : p a) (hq : ∀ b, q b ↔ b ≠ a ∧ p b) : Numbers q (n - 1) := by
  refine (h.remove_all (nodup_singleton a) ?_ ?_).2
  · intro b hb
    rw [mem_singleton.1 hb]
    exact ha
  · intro b
    rw [hq, mem_singleton]

/-- One element changes its mind, or does not. -/
theorem Numbers.change [DecidableEq α] [Decidable (p a)] [Decidable (q a)] (hq : ∀ b, b ≠ a → (q b ↔ p b)) :
    ∃ m, Numbers q m ∧ m + (if p a then 1 else 0) = n + if q a then 1 else 0 := by
  have hcases : ∀ b, q b ↔ (b = a ∧ q a) ∨ (b ≠ a ∧ p b) := by
    intro b
    by_cases hb : b = a
    · simp [hb]
    · simp [hb, hq b hb]
  by_cases hpa : p a <;> by_cases hqa : q a <;> simp only [hpa, hqa, if_true, if_false] at hcases ⊢
  · exact ⟨n, h.congr fun b => by grind, rfl⟩
  · have hpos := h.pos hpa
    exact ⟨n - 1, h.remove hpa fun b => by grind, by omega⟩
  · exact ⟨n + 1, h.add hpa fun b => by grind, rfl⟩
  · exact ⟨n, h.congr fun b => by grind, rfl⟩

/-- Several come at once. -/
theorem Numbers.add_all (hl : l.Nodup) (hp : ∀ a ∈ l, ¬p a) (hq : ∀ a, q a ↔ a ∈ l ∨ p a) :
    Numbers q (n + l.length) := by
  obtain ⟨m, hm, hmem, hn⟩ := h
  refine ⟨l ++ m, nodup_append.2 ⟨hl, hm, ?_⟩, fun a => ?_, ?_⟩
  · rintro a ha b hb rfl
    exact hp a ha ((hmem a).1 hb)
  · rw [mem_append, hmem, hq]
  · rw [length_append, hn, Nat.add_comm]

end

end Caffeinix
