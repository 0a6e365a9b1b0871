import Mathlib.Order.Interval.Finset.Nat
import Caffeinix.Lib.Runs

/-!
# `Caffeinix.Buddy.Memrange` — the sets of physical ranges the pages are taken from

`kernel/memrange.c`: the boot code adds the memory the device tree declares to a set of at most
`MEMRANGE_MAX` half-open ranges and removes what is reserved. The ranges stay apart and in order, so
the array is the one way to write the set of addresses it stands for, and every call is the
operation of sets its name says.
-/

namespace Caffeinix.Memrange

open Nat Finset

/-! ## The calls -/

/-- `struct memrange`. -/
structure Range where
  start : Nat
  finish : Nat
  deriving DecidableEq

/-- `MEMRANGE_MAX`. -/
def memrangeMax : Nat := 64

/-- The second loop of `memrange_add`: what begins no later than the new range ends is taken into it. -/
def absorb : List Range → Range → Range × List Range
  | [], new => (new, [])
  | r :: l, new =>
    if r.start ≤ new.finish then absorb l ⟨min r.start new.start, max r.finish new.finish⟩
    else (new, r :: l)

/-- `memrange_add`. -/
def memrangeAdd (set : List Range) (start finish : Nat) : List Range × Int :=
  if finish ≤ start then (set, -1)
  else
    let first := set.takeWhile (·.finish < start)
    let rest := set.dropWhile (·.finish < start)
    let r := absorb rest ⟨start, finish⟩
    -- nothing was taken in: the new range needs a slot of its own
    if r.2.length = rest.length ∧ memrangeMax ≤ set.length then (set, -1)
    else (first ++ r.1 :: r.2, 0)

/-- The loop of `memrange_remove`, from one range on; `count` is that of the whole set. -/
def removeLoop (start finish : Nat) : Nat → List Range → List Range × Int
  | _, [] => ([], 0)
  | count, r :: l =>
    if finish ≤ r.start then (r :: l, 0)
    else if r.finish ≤ start then
      let next := removeLoop start finish count l
      (r :: next.1, next.2)
    else if start ≤ r.start ∧ r.finish ≤ finish then removeLoop start finish (count - 1) l
    else if start ≤ r.start then (⟨finish, r.finish⟩ :: l, 0)
    else if r.finish ≤ finish then
      let next := removeLoop start finish count l
      (⟨r.start, start⟩ :: next.1, next.2)
    else if memrangeMax ≤ count then (r :: l, -1)
    else (⟨r.start, start⟩ :: ⟨finish, r.finish⟩ :: l, 0)

/-- `memrange_remove`. -/
def memrangeRemove (set : List Range) (start finish : Nat) : List Range × Int :=
  if finish ≤ start then (set, -1) else removeLoop start finish set.length set

/-- The loop of `memrange_contains`. -/
def containsLoop (start finish : Nat) : List Range → Bool
  | [] => false
  | r :: l =>
    if start < r.start then false
    else if r.start ≤ start ∧ finish ≤ r.finish then true
    else containsLoop start finish l

/-- `memrange_contains`. -/
def memrangeContains (set : List Range) (start finish : Nat) : Bool :=
  if finish ≤ start then false else containsLoop start finish set

/-- The loop of `memrange_total`: the sum is one of 64 bits, and its overflow is an error. -/
def totalLoop : Nat → List Range → Option Nat
  | bytes, [] => some bytes
  | bytes, r :: l =>
    let sum := (bytes + (r.finish - r.start)) % 2 ^ 64
    if sum < bytes then none else totalLoop sum l

/-- `memrange_total`. -/
def memrangeTotal (set : List Range) : Option Nat := totalLoop 0 set

/-- The calls that change a set. -/
inductive Call
  | add (start finish : UInt64)
  | remove (start finish : UInt64)

/-- One call: the array it leaves and what it returns. -/
def Call.perform (set : List Range) : Call → List Range × Int
  | .add start finish => memrangeAdd set start.toNat finish.toNat
  | .remove start finish => memrangeRemove set start.toNat finish.toNat

/-- The array after `memrange_init` and some calls. -/
def run (calls : List Call) : List Range :=
  calls.foldl (fun set c => (c.perform set).1) []

/-! ## The set of addresses -/

/-- The addresses of the ranges. -/
def addresses : List Range → Finset Nat
  | [] => ∅
  | r :: l => Finset.Ico r.start r.finish ∪ addresses l

/-- What a call does to the set of addresses. -/
def Call.meaning (set : Finset Nat) : Call → Finset Nat
  | .add start finish => set ∪ Finset.Ico start.toNat finish.toNat
  | .remove start finish => set \ Finset.Ico start.toNat finish.toNat

/-- Ranges from `b` on that are not empty, in order, and do not touch. -/
def Apart : Nat → List Range → Prop
  | _, [] => True
  | b, r :: l => b ≤ r.start ∧ r.start < r.finish ∧ Apart (r.finish + 1) l

variable {b start finish : Nat} {r new : Range} {l set : List Range}

@[simp] theorem mem_addresses_cons {x : Nat} :
    x ∈ addresses (r :: l) ↔ (r.start ≤ x ∧ x < r.finish) ∨ x ∈ addresses l := by
  simp [addresses]

theorem Apart.le {x : Nat} : ∀ {l b}, Apart b l → x ∈ addresses l → b ≤ x
  | [], _, _, hx => by simp [addresses] at hx
  | _ :: _, _, h, hx => by
    obtain hx | hx := mem_addresses_cons.mp hx
    · exact h.1.trans hx.1
    · have := h.2.2.le hx
      have := h.1
      have := h.2.1
      omega

theorem Apart.weaken {c : Nat} (h : Apart b l) (hc : c ≤ b) : Apart c l := by
  cases l with
  | nil => trivial
  | cons => exact ⟨hc.trans h.1, h.2⟩

/-- Two ways to write one set of addresses are the same. -/
theorem Apart.unique : ∀ {l m b c}, Apart b l → Apart c m → addresses l = addresses m → l = m
  | [], [], _, _, _, _, _ => rfl
  | [], r :: m, _, _, _, h, he => by
    have hr : r.start ∈ addresses [] := he ▸ mem_addresses_cons.mpr (.inl ⟨le_rfl, h.2.1⟩)
    simp [addresses] at hr
  | r :: l, [], _, _, h, _, he => by
    have hr : r.start ∈ addresses [] := he ▸ mem_addresses_cons.mpr (.inl ⟨le_rfl, h.2.1⟩)
    simp [addresses] at hr
  | ⟨start, finish⟩ :: l, ⟨start', finish'⟩ :: m, _, _, ⟨_, hr, hl⟩, ⟨_, hr', hm⟩, he => by
    have hmem : ∀ x, (start ≤ x ∧ x < finish) ∨ x ∈ addresses l ↔
        (start' ≤ x ∧ x < finish') ∨ x ∈ addresses m := fun x => by
      rw [← mem_addresses_cons (r := ⟨start, finish⟩), he, mem_addresses_cons]
    have hl' : ∀ {x}, x ∈ addresses l → finish < x := hl.le
    have hm' : ∀ {x}, x ∈ addresses m → finish' < x := hm.le
    -- the least address is the first start, and the first one missing after it the first end
    obtain rfl : start = start' := by
      grind
    obtain rfl : finish = finish' := by
      have h1 := hmem finish
      grind
    rw [hl.unique hm]
    ext x
    grind

/-! ## Adding -/

theorem absorb_length : ∀ l new, (absorb l new).2.length ≤ l.length
  | [], _ => le_rfl
  | r :: l, new => by
    rw [absorb]
    split
    · exact (absorb_length l _).trans (le_succ _)
    · exact le_rfl

/-- The new range, with what it took in, stands for the same addresses and is apart from the rest. -/
theorem absorb_spec : ∀ {l b} (new : Range), Apart b l → new.start < new.finish →
    (∀ r ∈ l.head?, new.start ≤ r.finish) → let r := absorb l new
    Apart (min b new.start) (r.1 :: r.2) ∧ addresses (r.1 :: r.2) = addresses (new :: l)
  | [], _, _, _, hnew, _ => ⟨⟨min_le_right _ _, hnew, trivial⟩, rfl⟩
  | r :: l, b, new, ⟨hb, hr, hl⟩, hnew, hfirst => by
    have hle : new.start ≤ r.finish := hfirst r rfl
    rw [absorb]
    split
    next htouch =>
      obtain ⟨hapart, hset⟩ := absorb_spec ⟨min r.start new.start, max r.finish new.finish⟩ hl
        (by simp only; omega) (fun q hq => by
          obtain ⟨m, rfl⟩ := List.head?_eq_some_iff.mp hq
          have := hl.1
          have := hl.2.1
          simp only
          omega)
      refine ⟨hapart.weaken (by simp only; omega), hset.trans ?_⟩
      ext x
      have hjoin : (min r.start new.start ≤ x ∧ x < max r.finish new.finish) ↔
          (new.start ≤ x ∧ x < new.finish) ∨ r.start ≤ x ∧ x < r.finish := by omega
      simp only [mem_addresses_cons, hjoin, or_assoc]
    next hgap => exact ⟨⟨min_le_right _ _, hnew, not_le.mp hgap, hr, hl⟩, rfl⟩

theorem add_spec (hlt : start < finish) : ∀ {set b}, Apart b set →
    let r := absorb (set.dropWhile (·.finish < start)) ⟨start, finish⟩
    let after := set.takeWhile (·.finish < start) ++ r.1 :: r.2
    Apart (min b start) after ∧ addresses after = addresses set ∪ Finset.Ico start finish
  | [], b, h => ⟨⟨min_le_right b start, hlt, trivial⟩, union_comm _ _⟩
  | r :: l, b, h => by
    by_cases hr : r.finish < start
    · obtain ⟨hapart, hset⟩ := add_spec hlt h.2.2
      rw [List.takeWhile_cons_of_pos (by simpa), List.dropWhile_cons_of_pos (by simpa)]
      refine ⟨⟨min_le_of_left_le h.1, h.2.1, hapart.weaken (by omega)⟩, ?_⟩
      rw [List.cons_append, addresses, hset, ← union_assoc, addresses]
    rw [List.takeWhile_cons_of_neg (by simpa using hr), List.dropWhile_cons_of_neg (by simpa using hr)]
    obtain ⟨hapart, hset⟩ := absorb_spec ⟨start, finish⟩ h hlt fun q hq => by
      obtain rfl : r = q := by simpa using hq
      exact not_lt.mp hr
    exact ⟨hapart, hset.trans (union_comm _ _)⟩

/-! ## Removing -/

/-- What the loop leaves. It fails only where the ranges before are untouched: the range it would
    split begins before the addresses to remove. -/
theorem removeLoop_spec (hlt : start < finish) : ∀ {l b} (c : Nat), Apart b l →
    let r := removeLoop start finish c l
    (r.2 = 0 ∨ r.2 = -1 ∧ b < start ∧ r.1 = l) ∧ Apart b r.1 ∧
      (r.2 = 0 → ∀ x, x ∈ addresses r.1 ↔ x ∈ addresses l ∧ ¬(start ≤ x ∧ x < finish))
  | [], _, _, _ => ⟨.inl rfl, trivial, fun _ x => by simp [removeLoop, addresses]⟩
  | r :: l, b, c, ⟨hb, hr, hl⟩ => by
    have hout : ∀ x, x ∈ addresses l → r.finish < x := fun _ => hl.le
    obtain ⟨hret, hapart, hdiff⟩ := removeLoop_spec hlt c hl
    rw [removeLoop]
    split_ifs with h1 h2 h3 h4 h5 h6
    · exact ⟨.inl rfl, ⟨hb, hr, hl⟩, fun _ x => by grind [mem_addresses_cons]⟩
    · exact ⟨hret.imp_right fun h => ⟨h.1, by omega, by simp only [h.2.2]⟩, ⟨hb, hr, hapart⟩,
        fun h x => by grind [mem_addresses_cons]⟩
    · obtain ⟨hret, hapart, hdiff⟩ := removeLoop_spec hlt (c - 1) hl
      exact ⟨.inl (hret.resolve_right fun h => by omega), hapart.weaken (by omega),
        fun h x => by grind [mem_addresses_cons]⟩
    · exact ⟨.inl rfl, ⟨by simp only; omega, by simp only; omega, hl⟩,
        fun _ x => by grind [mem_addresses_cons]⟩
    · exact ⟨.inl (hret.resolve_right fun h => by omega),
        ⟨hb, by simp only; omega, hapart.weaken (by simp only; omega)⟩,
        fun h x => by grind [mem_addresses_cons]⟩
    · exact ⟨.inr ⟨rfl, by omega, rfl⟩, ⟨hb, hr, hl⟩, nofun⟩
    · exact ⟨.inl rfl, ⟨hb, by simp only; omega, by simp only; omega, by simp only; omega, hl⟩,
        fun _ x => by grind [mem_addresses_cons]⟩

theorem removeLoop_length : ∀ (l : List Range) (c : Nat), l.length ≤ c → c ≤ memrangeMax →
    (removeLoop start finish c l).1.length + (c - l.length) ≤ memrangeMax
  | [], c, _, hc => by simpa [removeLoop] using hc
  | r :: l, c, hlen, hc => by
    have hkeep := removeLoop_length l c
    have hdrop := removeLoop_length l (c - 1)
    rw [removeLoop]
    split_ifs <;> simp only [List.length_cons] at hlen ⊢ <;> omega

/-! ## Asking -/

theorem containsLoop_iff (hlt : start < finish) : ∀ {l b}, Apart b l →
    (containsLoop start finish l = true ↔ Finset.Ico start finish ⊆ addresses l)
  | [], _, _ => by simp [containsLoop, addresses, subset_empty, hlt]
  | r :: l, b, ⟨hb, hr, hl⟩ => by
    have hout : ∀ {x}, x ∈ addresses l → r.finish < x := hl.le
    simp only [subset_iff, mem_Ico, mem_addresses_cons]
    rw [containsLoop]
    split_ifs with h1 h2
    · -- the first address is before all ranges
      refine iff_of_false nofun fun h => ?_
      grind
    · exact iff_of_true rfl fun x hx => .inl (by omega)
    -- the range ends inside the interval, which then has an address no range has, or before it
    rw [containsLoop_iff hlt hl]
    refine ⟨fun h x hx => .inr (h (mem_Ico.mpr hx)), fun h x hx => ?_⟩
    rw [mem_Ico] at hx
    exact (h hx).resolve_left (by grind)

theorem card_addresses_cons (h : Apart b (r :: l)) :
    (addresses (r :: l)).card = r.finish - r.start + (addresses l).card := by
  rw [addresses, card_union_of_disjoint, card_Ico]
  refine disjoint_left.mpr fun x hx hl => ?_
  have := h.2.2.le hl
  have := mem_Ico.mp hx
  omega

/-- No sum of sizes is greater than the end of the last range, so none overflows. -/
theorem totalLoop_eq : ∀ {l b bytes}, Apart b l → addresses l ⊆ Finset.range (2 ^ 64 - 1) → bytes ≤ b →
    totalLoop bytes l = some (bytes + (addresses l).card)
  | [], _, _, _, _, _ => rfl
  | r :: l, b, bytes, h, hw, hbytes => by
    have hb := h.1
    have hr := h.2.1
    have hlast := mem_range.mp (hw (mem_addresses_cons.mpr (.inl ⟨le_sub_one_of_lt hr, by omega⟩)))
    rw [totalLoop, mod_eq_of_lt (by omega), card_addresses_cons h, if_neg (by omega),
      totalLoop_eq h.2.2 (subset_union_right.trans hw) (by omega), add_assoc]

/-! ## Sets built by the calls -/

/-- What holds of every set the calls build. -/
structure Inv (set : List Range) : Prop where
  apart : Apart 0 set
  count : set.length ≤ memrangeMax
  wide : addresses set ⊆ Finset.range (2 ^ 64 - 1)

/-- A call keeps the invariant, and is its operation of sets or has no effect. -/
def Performs (set : List Range) (c : Call) (r : List Range × Int) : Prop :=
  Inv r.1 ∧ (r.2 = 0 ∧ addresses r.1 = c.meaning (addresses set) ∨ r.2 = -1 ∧ r.1 = set)

theorem Inv.memrangeAdd (h : Inv set) (start finish : UInt64) :
    Performs set (.add start finish) (memrangeAdd set start.toNat finish.toNat) := by
  refine iteInduction (fun _ => ⟨h, .inr ⟨rfl, rfl⟩⟩) fun hlt => ?_
  refine iteInduction (fun _ => ⟨h, .inr ⟨rfl, rfl⟩⟩) fun hroom => ?_
  obtain ⟨hapart, hset⟩ := add_spec (not_le.mp hlt) h.apart
  refine ⟨⟨hapart.weaken (zero_le _), ?_, ?_⟩, .inl ⟨rfl, hset⟩⟩
  · have hsplit := congrArg List.length (@List.takeWhile_append_dropWhile _ (·.finish < start.toNat) set)
    have hshorter := absorb_length (set.dropWhile (·.finish < start.toNat)) ⟨start.toNat, finish.toNat⟩
    have := h.count
    simp only [List.length_append, List.length_cons] at hsplit ⊢
    omega
  · rw [hset]
    refine union_subset h.wide fun x hx => ?_
    have := finish.toNat_lt
    simp only [mem_Ico, mem_range] at hx ⊢
    omega

theorem Inv.memrangeRemove (h : Inv set) (start finish : UInt64) :
    Performs set (.remove start finish) (memrangeRemove set start.toNat finish.toNat) := by
  refine iteInduction (fun _ => ⟨h, .inr ⟨rfl, rfl⟩⟩) fun hlt => ?_
  obtain ⟨hret | ⟨hret, -, hsame⟩, hapart, hmem⟩ := removeLoop_spec (not_le.mp hlt) set.length h.apart
  · have hlen := @removeLoop_length start.toNat finish.toNat set set.length le_rfl h.count
    refine ⟨⟨hapart, by omega, fun x hx => h.wide ((hmem hret x).mp hx).1⟩, .inl ⟨hret, ?_⟩⟩
    ext x
    rw [hmem hret x, Call.meaning, mem_sdiff, mem_Ico]
  · exact ⟨hsame.symm ▸ h, .inr ⟨hret, hsame⟩⟩

theorem Inv.perform (h : Inv set) : ∀ c : Call, Performs set c (c.perform set)
  | .add start finish => h.memrangeAdd start finish
  | .remove start finish => h.memrangeRemove start finish

theorem run_inv (calls : List Call) : Inv (run calls) :=
  Runs.foldl_invariant (fun _ c h => (h.perform c).1) ⟨trivial, zero_le _, by simp [addresses]⟩ calls

/-- The sets of ranges refine the sets of addresses. -/
theorem run_refines (calls : List Call) : let set := run calls
    Apart 0 set ∧ (∀ c : Call, Performs set c (c.perform set)) ∧
      (∀ start finish, memrangeContains set start finish = true ↔
        start < finish ∧ Finset.Ico start finish ⊆ addresses set) ∧
      memrangeTotal set = some (addresses set).card ∧
      ∀ calls', addresses (run calls') = addresses set → run calls' = set := by
  have h := run_inv calls
  refine ⟨h.apart, h.perform, fun start finish => ?_, ?_, fun calls' => (run_inv calls').apart.unique h.apart⟩
  · rw [memrangeContains]
    split
    next hle => exact iff_of_false nofun fun hc => by omega
    next hlt => rw [containsLoop_iff (not_le.mp hlt) h.apart, and_iff_right (not_le.mp hlt)]
  · rw [memrangeTotal, totalLoop_eq h.apart h.wide le_rfl, zero_add]

/-- The empty interval is never contained, though none of its addresses is missing. -/
theorem contains_empty_interval :
    memrangeContains (run []) 0 0 = false ∧ Finset.Ico 0 0 ⊆ addresses (run []) := by
  decide

end Caffeinix.Memrange
