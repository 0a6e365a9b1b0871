import Mathlib.Data.List.Nodup

/-!
# `Lib.Keyed` — lists that hold at most one element for each key

A list whose elements have distinct keys is a finite map that the code keeps as a list. The lemmas say how the
property survives what is done to such lists: adding, erasing and replacing an element, changing elements in
place, and that a search finds the one element with the key.
-/

namespace Caffeinix

open List

variable {β κ : Type*} {key : β → κ} {l : List β} {x y : β}

/-- No two elements have the same key. -/
def Keyed (key : β → κ) (l : List β) : Prop := (l.map key).Nodup

theorem Keyed.nil : Keyed key [] := nodup_nil

theorem keyed_cons : Keyed key (x :: l) ↔ (∀ y ∈ l, key y ≠ key x) ∧ Keyed key l := by
  unfold Keyed
  rw [map_cons, nodup_cons, mem_map]
  simp only [not_exists, not_and, ne_eq]

theorem Keyed.nodup (h : Keyed key l) : l.Nodup := List.Nodup.of_map key h

/-- Elements are known by their keys. -/
theorem Keyed.inj (h : Keyed key l) (hx : x ∈ l) (hy : y ∈ l) (hk : key x = key y) : x = y :=
  inj_on_of_nodup_map h hx hy hk

variable {l' : List β} {k : κ} {p : β → Bool}

section
variable (h : Keyed key l)
include h

theorem Keyed.sublist (hs : l'.Sublist l) : Keyed key l' :=
  List.Nodup.sublist (hs.map key) h

theorem Keyed.perm (hp : l'.Perm l) : Keyed key l' :=
  ((hp.map key).nodup_iff).mpr h

theorem Keyed.erase [DecidableEq β] (x : β) : Keyed key (l.erase x) :=
  h.sublist erase_sublist

/-- Changing elements in place without changing keys. -/
theorem Keyed.map {f : β → β} (hf : ∀ x ∈ l, key (f x) = key x) : Keyed key (l.map f) := by
  have hmap : l.map (key ∘ f) = l.map key := map_congr_left hf
  unfold Keyed
  rw [map_map, hmap]
  exact h

/-- What is left of a list without repetitions when one element is erased. -/
theorem Keyed.mem_erase [DecidableEq β] : y ∈ l.erase x ↔ y ≠ x ∧ y ∈ l :=
  h.nodup.mem_erase_iff

omit h in
/-- One element replaced by another that takes its place. -/
theorem mem_replace [DecidableEq β] {x' : β} (hx : x ∈ l) :
    y ∈ l.map (fun z => if z = x then x' else z) ↔ y = x' ∨ y ≠ x ∧ y ∈ l := by
  rw [mem_map]
  constructor
  · rintro ⟨z, hz, rfl⟩
    split_ifs with he
    · exact .inl rfl
    · exact .inr ⟨he, hz⟩
  · rintro (rfl | ⟨hne, hy⟩)
    · exact ⟨x, hx, if_pos rfl⟩
    · exact ⟨y, hy, if_neg hne⟩

/-- With a key there is one of them at most. -/
theorem Keyed.filter_eq [DecidableEq κ] (hx : x ∈ l) : l.filter (fun y => key y = key x) = [x] := by
  induction l with
  | nil => cases hx
  | cons y l ih =>
    obtain ⟨hy, hl⟩ := keyed_cons.mp h
    rcases mem_cons.mp hx with rfl | hx
    · have hnil : l.filter (fun y => key y = key x) = [] :=
        filter_eq_nil_iff.mpr fun z hz => by rw [decide_eq_true_eq]; exact hy z hz
      rw [filter_cons, if_pos (decide_eq_true rfl), hnil]
    · have hne : ¬ decide (key y = key x) = true := by rw [decide_eq_true_eq]; exact (hy x hx).symm
      rw [filter_cons, if_neg hne, ih hl hx]

/-- A search for a key finds the element that has it. -/
theorem Keyed.find?_eq_some (hp : ∀ x, p x = true ↔ key x = k) : l.find? p = some x ↔ x ∈ l ∧ key x = k := by
  constructor
  · intro hf
    exact ⟨mem_of_find?_eq_some hf, (hp x).mp (List.find?_some hf)⟩
  · rintro ⟨hx, hk⟩
    cases hf : l.find? p with
    | none => exact absurd ((hp x).mpr hk) (List.find?_eq_none.mp hf x hx)
    | some z =>
      have hz := (hp z).mp (List.find?_some hf)
      rw [h.inj (mem_of_find?_eq_some hf) hx (hz.trans hk.symm)]

end

/-- A search fails when nothing has the key. -/
theorem find?_key_eq_none (hp : ∀ x, p x = true ↔ key x = k) : l.find? p = none ↔ ∀ x ∈ l, key x ≠ k := by
  rw [List.find?_eq_none]
  exact forall₂_congr fun x _ => not_congr (hp x)

end Caffeinix
