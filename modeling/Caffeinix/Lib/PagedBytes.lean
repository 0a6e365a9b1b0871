import Mathlib.Data.List.Nodup
import Mathlib.Algebra.Order.Ring.Nat

/-!
# `Lib.PagedBytes` — bytes kept in a list of pages

An array of bytes is a list of pages, each with its index; a page that is not in the list stands for zeros.
`byte` is the array. The lemmas say what adding, filling and dropping pages does to it.
-/

namespace Caffeinix.PagedBytes

open Nat List
open Option (map_some)

structure Page where
  index : Nat
  data : Nat → UInt8

/-- A page of zeros. -/
def Page.zero (index : Nat) : Page := ⟨index, fun _ => 0⟩

/-- The first page with this index. -/
def find (pages : List Page) (index : Nat) : Option Page := pages.find? fun p => p.index == index

/-- The array, for pages of `pg` bytes. -/
def byte (pg : Nat) (pages : List Page) (x : Nat) : UInt8 :=
  match find pages (x / pg) with
  | some p => p.data (x % pg)
  | none => 0

/-- `n` bytes of the page from `offset` on are replaced. -/
def Page.fill (p : Page) (offset n : Nat) (source : Nat → UInt8) : Page :=
  { p with data := fun i => if offset ≤ i ∧ i < offset + n then source (i - offset) else p.data i }

/-- The same, in the page with this index, if there is one. -/
def fill (pages : List Page) (index offset n : Nat) (source : Nat → UInt8) : List Page :=
  pages.map fun p => if p.index = index then p.fill offset n source else p

/-- No index occurs twice. -/
def Distinct (pages : List Page) : Prop := (pages.map Page.index).Nodup

variable {pg : Nat} {pages : List Page} {index : Nat}

theorem find_none : find pages index = none ↔ ∀ p ∈ pages, p.index ≠ index := by
  unfold find
  simp

theorem find_cons (p : Page) (index : Nat) :
    find (p :: pages) index = if p.index = index then some p else find pages index := by
  unfold find
  rw [List.find?_cons]
  by_cases h : p.index = index
  · rw [if_pos h, h, beq_self_eq_true]
  · rw [if_neg h, beq_false_of_ne h]

theorem find_fill (index offset n : Nat) (source : Nat → UInt8) (i : Nat) :
    find (fill pages index offset n source) i =
      (find pages i).map fun p => if i = index then p.fill offset n source else p := by
  induction pages with
  | nil => rfl
  | cons p pages ih =>
    show find ((if p.index = index then p.fill offset n source else p) :: fill pages index offset n source) i = _
    rw [find_cons, find_cons, ih]
    by_cases hp : p.index = index
    · rw [if_pos hp]
      show (if p.index = i then _ else _) = _
      by_cases hi : p.index = i
      · rw [if_pos hi, if_pos hi, map_some, if_pos (hi.symm.trans hp)]
      · rw [if_neg hi, if_neg hi]
    · rw [if_neg hp]
      by_cases hi : p.index = i
      · rw [if_pos hi, if_pos hi, map_some, if_neg (fun h => hp (hi.trans h))]
      · rw [if_neg hi, if_neg hi]

/-- There is no such page. -/
theorem fill_absent (h : ∀ p ∈ pages, p.index ≠ index) (offset n : Nat) (source : Nat → UInt8) :
    fill pages index offset n source = pages := by
  refine (map_congr_left fun p hp => ?_).trans (map_id pages)
  exact if_neg (h p hp)

theorem find_filter (q : Nat → Bool) (i : Nat) :
    find (pages.filter fun p => q p.index) i = if q i then find pages i else none := by
  induction pages with
  | nil =>
    cases q i <;> rfl
  | cons p pages ih =>
    rw [filter_cons]
    by_cases hi : p.index = i
    · subst hi
      cases hq : q p.index with
      | true => rw [if_pos rfl, if_pos rfl, find_cons, find_cons, if_pos rfl, if_pos rfl]
      | false =>
        rw [if_neg Bool.false_ne_true, if_neg Bool.false_ne_true, ih, hq, if_neg Bool.false_ne_true]
    · cases hq : q p.index with
      | true => rw [if_pos rfl, find_cons, find_cons, if_neg hi, if_neg hi, ih]
      | false => rw [if_neg Bool.false_ne_true, find_cons, if_neg hi, ih]

/-- A page of zeros in the place of none changes nothing. -/
theorem byte_zero (h : find pages index = none) (x : Nat) :
    byte pg (Page.zero index :: pages) x = byte pg pages x := by
  unfold byte
  rw [find_cons]
  by_cases hx : index = x / pg
  · rw [← hx, h]
    show (match (if index = index then some (Page.zero index) else none) with
      | some p => p.data (x % pg)
      | none => 0) = 0
    rw [if_pos rfl]
    rfl
  · rw [if_neg (show ¬ (Page.zero index).index = x / pg from hx)]

/-- The bytes from `position` on, inside its page. -/
theorem byte_inside {position i : Nat} (h : position % pg + i < pg) :
    byte pg pages (position + i) =
      match find pages (position / pg) with
      | some p => p.data (position % pg + i)
      | none => 0 := by
  have hpg : 0 < pg := by omega
  have hsplit : position + i = pg * (position / pg) + (position % pg + i) := by
    rw [← add_assoc, div_add_mod]
  unfold byte
  rw [hsplit, mul_add_div hpg, div_eq_of_lt h, add_zero, mul_add_mod, mod_eq_of_lt h]

/-- Filling from `position` on, inside one page. -/
theorem byte_fill {position n : Nat} {source : Nat → UInt8} (hpg : 0 < pg)
    (hfound : (find pages (position / pg)).isSome) (hn : position % pg + n ≤ pg) (x : Nat) :
    byte pg (fill pages (position / pg) (position % pg) n source) x =
      if position ≤ x ∧ x < position + n then source (x - position) else byte pg pages x := by
  have hx := div_add_mod x pg
  have hp := div_add_mod position pg
  unfold byte
  rw [find_fill]
  by_cases hsame : x / pg = position / pg
  · rw [hsame] at hx ⊢
    obtain ⟨p, hfind⟩ := Option.isSome_iff_exists.mp hfound
    rw [hfind, map_some, if_pos rfl]
    show (if position % pg ≤ x % pg ∧ x % pg < position % pg + n then _ else _) = _
    by_cases hin : position ≤ x ∧ x < position + n
    · rw [if_pos hin, if_pos (by omega), show x % pg - position % pg = x - position by omega]
    · rw [if_neg hin, if_neg (by omega)]
  · -- another page: `x` is before this page or behind it
    have hout : ¬ (position ≤ x ∧ x < position + n) := by
      rintro ⟨hle, hlt⟩
      have hle' : position / pg ≤ x / pg := Nat.div_le_div_right hle
      have hlt' : x / pg < position / pg + 1 := by
        rw [Nat.div_lt_iff_lt_mul hpg, Nat.add_mul, Nat.one_mul, Nat.mul_comm]
        omega
      omega
    rw [if_neg hout]
    cases find pages (x / pg) with
    | none => rfl
    | some =>
      rw [map_some, if_neg hsame]

/-- Dropping the pages behind `size` and clearing the rest of the page it lies in. -/
theorem byte_cut (pages : List Page) (size : Nat) (hpg : 0 < pg) (x : Nat) :
    byte pg (fill (pages.filter fun p => decide (p.index < size / pg + if size % pg = 0 then 0 else 1)) (size / pg)
      (size % pg) (pg - size % pg) fun _ => 0) x = if x < size then byte pg pages x else 0 := by
  have hx := div_add_mod x pg
  have hs := div_add_mod size pg
  have hxm := mod_lt x hpg
  unfold byte
  rw [find_fill, find_filter fun i => decide (i < size / pg + if size % pg = 0 then 0 else 1)]
  by_cases hlt : x < size
  · have hdiv : x / pg ≤ size / pg := Nat.div_le_div_right hlt.le
    have hkeep : x / pg < size / pg + if size % pg = 0 then 0 else 1 := by
      split_ifs with hzero
      · rw [add_zero]
        rcases lt_or_ge (x / pg) (size / pg) with h | h
        · exact h
        · have heq : x / pg = size / pg := le_antisymm hdiv h
          rw [heq] at hx
          omega
      · omega
    rw [if_pos (decide_eq_true hkeep), if_pos hlt]
    cases hfind : find pages (x / pg) with
    | none => rfl
    | some p =>
      rw [map_some]
      by_cases hsame : x / pg = size / pg
      · rw [if_pos hsame]
        show (if size % pg ≤ x % pg ∧ _ then _ else p.data (x % pg)) = p.data (x % pg)
        rw [hsame] at hx
        rw [if_neg (by omega)]
      · rw [if_neg hsame]
  · rw [if_neg hlt]
    have hdiv : size / pg ≤ x / pg := Nat.div_le_div_right (Nat.le_of_not_lt hlt)
    by_cases hkeep : x / pg < size / pg + if size % pg = 0 then 0 else 1
    · -- in the page of `size` itself, behind it
      have hsame : x / pg = size / pg := by
        split_ifs at hkeep <;> omega
      rw [if_pos (decide_eq_true hkeep)]
      cases find pages (x / pg) with
      | none => rfl
      | some =>
        rw [map_some, if_pos hsame]
        show (if size % pg ≤ x % pg ∧ _ then (0 : UInt8) else _) = 0
        rw [hsame] at hx
        rw [if_pos (by omega)]
    · rw [if_neg (by simpa using hkeep)]
      rfl

/-! ## Distinct indices -/

section
variable (h : Distinct pages)
include h

theorem Distinct.zero (hnone : find pages index = none) : Distinct (.zero index :: pages) := by
  refine nodup_cons.mpr ⟨fun hmem => ?_, h⟩
  obtain ⟨p, hp, hidx⟩ := mem_map.mp hmem
  exact find_none.mp hnone p hp hidx

theorem Distinct.fill (index offset n : Nat) (source : Nat → UInt8) :
    Distinct (fill pages index offset n source) := by
  unfold Distinct PagedBytes.fill
  rw [map_map]
  have hsame : pages.map (Page.index ∘ fun p => if p.index = index then p.fill offset n source else p) =
      pages.map Page.index := by
    refine map_congr_left fun p _ => ?_
    show (if p.index = index then p.fill offset n source else p).index = p.index
    split_ifs <;> rfl
  rw [hsame]
  exact h

theorem Distinct.filter (q : Page → Bool) : Distinct (pages.filter q) :=
  h.sublist (filter_sublist.map Page.index)

end

theorem length_fill (pages : List Page) (index offset n : Nat) (source : Nat → UInt8) :
    (fill pages index offset n source).length = pages.length := length_map _

end Caffeinix.PagedBytes
