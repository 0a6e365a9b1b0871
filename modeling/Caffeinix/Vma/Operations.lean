import Caffeinix.Vma.PageMap
import Mathlib.Data.List.Basic

/-!
# `Vma.Operations` — one specification per operation of a VMA set

Each `…_spec` theorem takes the invariant of the set before the call and gives, for each way the call can
end, the invariant and the meaning of the set after it. Callers use these and never unfold an operation.
-/

namespace Caffeinix.Vma

open Nat Option List Intervals
open Nat (le_of_not_lt lt_of_not_le max_lt)

variable {base refs : Refs} {s : VmaState} {a new : VmArea} {areas l r : List VmArea}
  {b e x address start finish protection : Nat} {v : PageAttr}

/-! ## Lookups -/

section
variable (h : Areas b areas e)
include h

/-- `vma_find` returns the area that holds the address. -/
theorem vmaFind_eq_some : vmaFind address areas = some a ↔ a ∈ areas ∧ a.Has address := by
  induction areas generalizing b with
  | nil => simp [vmaFind]
  | cons c areas ih =>
    obtain ⟨h1, h2, h3⟩ := h
    unfold vmaFind
    -- an area behind `c` starts at or after its end
    have hfar : ∀ d ∈ areas, d.Has address → c.finish ≤ address := fun d hd hx =>
      (h3.mem hd).1.trans hx.1
    split
    · rename_i hlt
      refine iff_of_false (by simp) ?_
      rintro ⟨ha, hx⟩
      cases ha with
      | head => exact absurd hx.1 (Nat.not_le.mpr hlt)
      | tail _ ha => exact absurd (hlt.trans h2) (Nat.not_lt.mpr (hfar a ha hx))
    rename_i hge
    split
    · rename_i hlt
      constructor
      · intro he
        rw [some.injEq] at he
        subst he
        exact ⟨mem_cons_self .., le_of_not_lt hge, hlt⟩
      · rintro ⟨ha, hx⟩
        cases ha with
        | head => rfl
        | tail _ ha => exact absurd hlt (Nat.not_lt.mpr (hfar a ha hx))
    · rename_i hge'
      rw [ih h3]
      constructor
      · rintro ⟨ha, hx⟩
        exact ⟨mem_cons_of_mem _ ha, hx⟩
      · rintro ⟨ha, hx⟩
        cases ha with
        | head => exact absurd hx.2 hge'
        | tail _ ha => exact ⟨ha, hx⟩

theorem vmaFind_eq_none : vmaFind address areas = none ↔ ¬ ∃ a ∈ areas, a.Has address := by
  rw [eq_none_iff_forall_ne_some]
  constructor
  · rintro hn ⟨a, ha, hx⟩
    exact hn a ((vmaFind_eq_some h).mpr ⟨ha, hx⟩)
  · intro hn a he
    exact hn ⟨a, (vmaFind_eq_some h).mp he⟩

omit h in
/-- The place of the area `vma_find` returns, where `vmaReplace` works. -/
theorem vmaFind_place (h : vmaFind address areas = some a) :
    a.Has address ∧
      ∃ l r, areas = l ++ [a] ++ r ∧ ∀ f, vmaReplace address f areas = l ++ f a ++ r := by
  induction areas with
  | nil => exact absurd h (by simp [vmaFind])
  | cons c areas ih =>
    unfold vmaFind at h
    by_cases h1 : address < c.start
    · rw [if_pos h1] at h
      exact absurd h (by simp)
    rw [if_neg h1] at h
    by_cases h2 : address < c.finish
    · rw [if_pos h2, some.injEq] at h
      subst h
      refine ⟨⟨le_of_not_lt h1, h2⟩, [], areas, rfl, fun f => ?_⟩
      simp only [vmaReplace, if_neg h1, if_pos h2, nil_append]
    · rw [if_neg h2] at h
      obtain ⟨hx, l, r, he, hf⟩ := ih h
      refine ⟨hx, c :: l, r, by rw [he]; rfl, fun f => ?_⟩
      simp only [vmaReplace, if_neg h1, if_neg h2, hf, cons_append]

theorem vmaRangeFree_iff : vmaRangeFree areas start finish = true ↔
    start < finish ∧ ∀ x, start ≤ x → x < finish → ¬ ∃ a ∈ areas, a.Has x := by
  have hloop : start < finish → (vmaRangeFreeLoop start finish areas = true ↔
      ∀ x, start ≤ x → x < finish → ¬ ∃ a ∈ areas, a.Has x) := by
    intro hlt
    induction areas generalizing b with
    | nil => simp [vmaRangeFreeLoop]
    | cons c areas ih =>
      obtain ⟨h1, h2, h3⟩ := h
      unfold vmaRangeFreeLoop
      by_cases hc : finish ≤ c.start
      · rw [if_pos hc]
        refine iff_of_true rfl ?_
        rintro x _ hx ⟨a, ha, hax⟩
        have hca : c.start ≤ a.start := by
          cases ha with
          | head => exact le_refl _
          | tail _ ha => exact h2.le.trans (h3.mem ha).1
        exact absurd (hax.1.trans_lt hx) (Nat.not_lt.mpr (hc.trans hca))
      · rw [if_neg hc]
        split_ifs with hs
        · -- the larger of the two starts is in both intervals
          refine iff_of_false (by simp) fun hno => ?_
          refine hno (max start c.start) (Nat.le_max_left ..) ?_ ⟨c, mem_cons_self .., ?_, ?_⟩
          · exact max_lt.mpr ⟨hlt, lt_of_not_le hc⟩
          · exact Nat.le_max_right ..
          · exact max_lt.mpr ⟨hs, h2⟩
        · rw [ih h3]
          refine forall_congr' fun x => forall_congr' fun hx => forall_congr' fun _ => ?_
          have hcx : ¬ c.Has x := fun hcx => hs (hx.trans_lt hcx.2)
          simp only [mem_cons, exists_eq_or_imp, hcx, false_or]
  unfold vmaRangeFree
  by_cases hlt : start < finish
  · rw [if_neg (Nat.not_le.mpr hlt), hloop hlt]
    exact ⟨fun h => ⟨hlt, h⟩, fun h => h.2⟩
  · rw [if_pos (le_of_not_lt hlt)]
    exact iff_of_false (by simp) fun h => hlt h.1

theorem vmaRangeMapped_iff : vmaRangeMapped areas start finish = true ↔
    start < finish ∧ ∀ x, start ≤ x → x < finish → ∃ a ∈ areas, a.Has x := by
  have hloop : ∀ cursor, cursor < finish → (vmaRangeMappedLoop finish cursor areas = true ↔
      ∀ x, cursor ≤ x → x < finish → ∃ a ∈ areas, a.Has x) := by
    induction areas generalizing b with
    | nil =>
      intro cursor hlt
      refine iff_of_false (by simp [vmaRangeMappedLoop]) fun hall => ?_
      obtain ⟨a, ha, _⟩ := hall cursor (le_refl _) hlt
      exact absurd ha (by simp)
    | cons c areas ih =>
      obtain ⟨h1, h2, h3⟩ := h
      intro cursor hlt
      unfold vmaRangeMappedLoop
      by_cases hp : c.finish ≤ cursor
      · rw [if_pos hp, ih h3 cursor hlt]
        refine forall_congr' fun x => forall_congr' fun hx => forall_congr' fun _ => ?_
        have hcx : ¬ c.Has x := fun hcx => absurd (hp.trans hx) (Nat.not_le.mpr hcx.2)
        simp only [mem_cons, exists_eq_or_imp, hcx, false_or]
      rw [if_neg hp]
      by_cases hs : c.start > cursor
      · rw [if_pos hs]
        refine iff_of_false (by simp) fun hall => ?_
        obtain ⟨a, ha, hax⟩ := hall cursor (le_refl _) hlt
        cases ha with
        | head => exact absurd hax.1 (Nat.not_le.mpr hs)
        | tail _ ha =>
          exact absurd (h2.le.trans ((h3.mem ha).1.trans hax.1)) (Nat.not_le.mpr hs)
      · rw [if_neg hs]
        have hcov : ∀ x, cursor ≤ x → x < c.finish → c.Has x := fun x hx hxc =>
          ⟨(le_of_not_lt hs).trans hx, hxc⟩
        by_cases hf : c.finish ≥ finish
        · rw [if_pos hf]
          refine iff_of_true rfl fun x hx hxf => ⟨c, mem_cons_self .., ?_⟩
          exact hcov x hx (hxf.trans_le hf)
        rw [if_neg hf, ih h3 c.finish (lt_of_not_le hf)]
        constructor
        · intro hall x hx hxf
          by_cases hxc : x < c.finish
          · exact ⟨c, mem_cons_self .., hcov x hx hxc⟩
          · obtain ⟨a, ha, hax⟩ := hall x (le_of_not_lt hxc) hxf
            exact ⟨a, mem_cons_of_mem _ ha, hax⟩
        · intro hall x hx hxf
          obtain ⟨a, ha, hax⟩ := hall x ((Nat.le_of_not_le hp).trans hx) hxf
          cases ha with
          | head => exact absurd hax.2 (Nat.not_lt.mpr hx)
          | tail _ ha => exact ⟨a, ha, hax⟩
  unfold vmaRangeMapped
  by_cases hlt : start < finish
  · rw [if_neg (Nat.not_le.mpr hlt), hloop start hlt]
    exact ⟨fun h => ⟨hlt, h⟩, fun h => h.2⟩
  · rw [if_pos (le_of_not_lt hlt)]
    exact iff_of_false (by simp) fun h => hlt h.1

/-! ## Inserting -/

theorem vmaInsertPlace_some {p : List VmArea × List VmArea} (hp : vmaInsertPlace start finish areas = some p) :
    areas = p.1 ++ p.2 ∧ (∀ a ∈ p.1, a.finish ≤ start) ∧ ∀ a ∈ p.2, finish ≤ a.start := by
  induction areas generalizing b p with
  | nil =>
    obtain rfl := some.inj hp
    exact ⟨rfl, by simp, by simp⟩
  | cons c areas ih =>
    obtain ⟨h1, h2, h3⟩ := h
    unfold vmaInsertPlace at hp
    by_cases hc : finish ≤ c.start
    · rw [if_pos hc, some.injEq] at hp
      subst hp
      refine ⟨rfl, by simp, fun a ha => ?_⟩
      cases ha with
      | head => exact hc
      | tail _ ha => exact hc.trans (h2.le.trans (h3.mem ha).1)
    rw [if_neg hc] at hp
    by_cases hs : start < c.finish
    · rw [if_pos hs] at hp
      exact absurd hp (by simp)
    rw [if_neg hs, map_eq_some_iff] at hp
    obtain ⟨q, hq, rfl⟩ := hp
    obtain ⟨he, hl, hr⟩ := ih h3 hq
    refine ⟨by rw [he]; rfl, fun a ha => ?_, hr⟩
    cases ha with
    | head => exact le_of_not_lt hs
    | tail _ ha => exact hl a ha

end

/-- The arguments the check lets through are those of a consistent, non-empty area below `MAXVA`. -/
theorem vmaInsertRefused_eq_false : vmaInsertRefused new = false ↔
    AreaWf new ∧ new.start < new.finish ∧ new.finish ≤ maxva := by
  simp only [vmaInsertRefused, Bool.or_eq_false_iff, decide_eq_false_iff_not, ne_eq, not_not,
    Bool.and_eq_false_iff, bne_eq_false_iff_eq, beq_eq_false_iff_ne, Nat.not_le, Nat.not_lt]
  constructor
  · rintro ⟨⟨⟨⟨⟨⟨⟨⟨⟨h1, h2⟩, h3⟩, h4⟩, h5⟩, h6⟩, h7⟩, h8⟩, h9⟩, h10⟩
    have hne : new.origin = .anonymous → new.origin ≠ .fileBacked := fun ho => by rw [ho]; simp
    refine ⟨⟨dvd_of_mod_eq_zero h2, dvd_of_mod_eq_zero h3, dvd_of_mod_eq_zero h5, ?_, ?_, h6,
      ?_, ?_⟩, h1, h4⟩
    · rw [← h8, beq_iff_eq]
    · intro hb
      rcases h9 with h9 | h9
      · exact absurd hb (by simp [h9])
      · exact h9.1
    · intro ho
      rcases h10 with h10 | h10
      · exact absurd h10 (hne ho)
      · exact h10
    · intro ho
      have hfits : new.finish - new.start ≤ uint64Max - new.offset := by
        rcases h7 with ⟨h7, h7'⟩ | h7
        · rcases ho with ho | ho
          · exact absurd ho h7
          · exact absurd ho (by simp [h7'])
        · exact h7
      omega
  · rintro ⟨h, hne, hmax⟩
    refine ⟨⟨⟨⟨⟨⟨⟨⟨⟨hne, ?_⟩, ?_⟩, hmax⟩, ?_⟩, h.length⟩, ?_⟩, ?_⟩, ?_⟩, ?_⟩
    · exact mod_eq_zero_of_dvd h.start_page
    · exact mod_eq_zero_of_dvd h.finish_page
    · exact mod_eq_zero_of_dvd h.offset_page
    · by_cases ho : new.HasOffset
      · right
        have := h.no_wrap ho
        omega
      · left
        simpa [VmArea.HasOffset] using ho
    · rw [Bool.eq_iff_iff, beq_iff_eq, h.file_iff]
    · cases hb : new.backing.isSome with
      | false => exact .inl rfl
      | true =>
        right
        have ho := h.backing_anonymous hb
        refine ⟨ho, ?_⟩
        rw [Bool.eq_false_iff, ne_eq, h.file_iff, ho]
        simp
    · cases ho : new.origin with
      | fileBacked => exact .inl rfl
      | anonymous => exact .inr (h.length_zero ho)

/-- Putting a consistent area in a gap of the list. -/
theorem Inv.insert (h : Inv base ⟨refs, l ++ r⟩) (hwf : AreaWf new) (hne : new.start < new.finish)
    (hmax : new.finish ≤ maxva) (hl : ∀ a ∈ l, a.finish ≤ new.start) (hr : ∀ a ∈ r, new.finish ≤ a.start) :
    Inv base ⟨refs.get new.refs, l ++ [new] ++ r⟩ := by
  refine ⟨?_, ?_, ?_⟩
  · obtain ⟨m, hcl, hcr⟩ := chain_append.mp h.areas
    simp only [chain_append]
    refine ⟨new.finish, ⟨new.start, hcl.shrink (zero_le _) hl, ?_⟩, hcr.raise hmax hr⟩
    exact ⟨le_refl _, hne, le_refl _⟩
  · intro a ha
    simp only [mem_append, mem_singleton] at ha
    rcases ha with (ha | rfl) | ha
    · exact h.wf a (mem_append_left _ ha)
    · exact hwf
    · exact h.wf a (mem_append_right _ ha)
  · intro k
    have hk := h.refs k
    simp only [heldRefs_append, heldRefs_cons, heldRefs_nil, append_nil, count_append,
      get_apply] at hk ⊢
    omega

variable {before : List VmArea} {area : VmArea} {after : List VmArea}

theorem silent_linkNext : Silent ⟨refs, before ++ [area] ++ after⟩ (vmaLinkNext refs before area after) := by
  cases after with
  | nil =>
    rw [append_nil]
    exact .refl _
  | cons current rest =>
    unfold vmaLinkNext
    cases hcan : vmaCanMerge area current with
    | true =>
      have hstep := silent_merge refs before rest hcan
      simp only [hcan, if_true, append_assoc, cons_append, nil_append] at hstep ⊢
      exact hstep
    | false =>
      simp only [hcan, Bool.false_eq_true, if_false, append_assoc, cons_append,
        nil_append]
      exact .refl _

/-- Linking a new area in merges silently. -/
theorem silent_link : Silent ⟨refs, before ++ [area] ++ after⟩ (vmaLink refs before area after) := by
  unfold vmaLink
  cases hlast : before.getLast? with
  | none => exact silent_linkNext
  | some current =>
    have hbefore : before.dropLast ++ [current] = before := dropLast_append_getLast? current hlast
    cases hcan : vmaCanMerge current area with
    | false =>
      simp only [hcan, Bool.false_eq_true, if_false]
      exact silent_linkNext
    | true =>
      simp only [hcan, if_true]
      have hstep := silent_merge refs before.dropLast after hcan
      have hsplit : before.dropLast ++ [current, area] ++ after = before ++ [area] ++ after := by
        conv_rhs => rw [← hbefore]
        simp only [append_assoc, cons_append, nil_append]
      rw [hsplit] at hstep
      exact hstep.trans silent_linkNext

variable {outcome : Allocation} {split : Option VmArea} {cut c : Nat} {o endArea : VmArea} {needed : Bool}
  {p : Refs × Option VmArea}

theorem vmaAllocate_some {refs' : Refs} (h : vmaAllocate outcome refs a = some refs') :
    refs' = refs.get a.refs := by
  unfold vmaAllocate at h
  split at h
  · exact absurd h (by simp)
  · split at h
    · exact absurd h (by simp)
    · exact (some.inj h).symm

/-- **`vma_insert_file_length`** changes nothing or adds exactly the pages of its range, which were free. -/
theorem vmaInsertFileLength_spec (outcome : Allocation) (h : Inv base s) (new : VmArea) :
    vmaInsertFileLength outcome s new = (s, -1) ∨
    ∃ s', vmaInsertFileLength outcome s new = (s', 0) ∧ Inv base s' ∧
      new.start < new.finish ∧ pgsize ∣ new.start ∧ pgsize ∣ new.finish ∧
      (∀ x, new.Has x → ¬ ∃ a ∈ s.areas, a.Has x) ∧
      ∀ x, pgsize ∣ x → ∀ v, Maps s'.areas x v ↔ Maps s.areas x v ∨ (new.Has x ∧ new.page x = v) := by
  unfold vmaInsertFileLength
  cases hchk : vmaInsertRefused new with
  | true => exact .inl rfl
  | false =>
    cases hplace : vmaInsertPlace new.start new.finish s.areas with
    | none => exact .inl rfl
    | some p =>
      obtain ⟨before, after⟩ := p
      cases halloc : vmaAllocate outcome s.refs new with
      | none => exact .inl rfl
      | some refs =>
        right
        obtain ⟨hwf, hne, hmax⟩ := vmaInsertRefused_eq_false.mp hchk
        obtain ⟨he, hl, hr⟩ := vmaInsertPlace_some h.areas hplace
        obtain rfl := vmaAllocate_some halloc
        obtain ⟨refs, areas⟩ := s
        subst he
        obtain ⟨hinv, hmap⟩ := silent_link base (h.insert hwf hne hmax hl hr)
        refine ⟨_, rfl, hinv, hne, hwf.start_page, hwf.finish_page, ?_, ?_⟩
        · rintro x hx ⟨a, ha, hax⟩
          simp only [mem_append] at ha
          rcases ha with ha | ha
          · exact absurd (hax.2.trans_le (hl a ha)) (Nat.not_lt.mpr hx.1)
          · exact absurd (hx.2.trans_le (hr a ha)) (Nat.not_lt.mpr hax.1)
        · intro x hx v
          rw [hmap x hx v]
          simp only [maps_append, maps_cons, maps_nil, or_false]
          tauto

/-- `vma_insert_backed` fails or is the plain insert. -/
theorem vmaInsertBacked_cases (outcome : Allocation) (s : VmaState) (start finish protection flags : Nat)
    (usage : VmaUsage) (backing : Option VmaBacking) (offset : Nat) :
    vmaInsertBacked outcome s start finish protection flags usage backing offset = (s, -1) ∨
    ∃ k, backing = some k ∧
      vmaInsertBacked outcome s start finish protection flags usage backing offset =
        vmaInsertFileLength outcome s
          ⟨start, finish, offset, 0, protection, flags, .anonymous, usage, none, some k⟩ := by
  unfold vmaInsertBacked
  cases backing with
  | none => exact .inl rfl
  | some k =>
    cases hk : (!k.hasGet || !k.hasPut) with
    | true =>
      left
      simp only [hk, if_true]
    | false =>
      right
      refine ⟨k, rfl, ?_⟩
      simp only [hk, Bool.false_eq_true, if_false]

/-! ## Unmapping -/

/-- The counters stand for `areas` and the split not yet linked in. -/
def Balanced (base refs : Refs) (areas : List VmArea) (split : Option VmArea) : Prop :=
  ∀ k, refs k = base k + (heldRefs (areas ++ split.toList)).count k

theorem Balanced.cons (h : Balanced base refs (a :: areas) split) :
    Balanced (base.get a.refs) refs areas split := by
  intro k
  have hk := h k
  simp only [cons_append, heldRefs_cons, count_append, get_apply] at hk ⊢
  omega

theorem Balanced.uncons {c : VmArea} (hc : c.refs = a.refs)
    (h : Balanced (base.get a.refs) refs areas split) : Balanced base refs (c :: areas) split := by
  intro k
  have hk := h k
  simp only [cons_append, heldRefs_cons, count_append, get_apply, hc] at hk ⊢
  omega

theorem Balanced.release (h : Balanced base refs (a :: areas) split) :
    Balanced base (vmaRelease refs a) areas split := by
  intro k
  have hk := h k
  simp only [cons_append, heldRefs_cons, count_append, vmaRelease, put_apply] at hk ⊢
  omega

/-- The parts of an area and of the areas behind it that an unmapping keeps, as facts about one page: `P`,
    it is a page of the area `[lo, hi)`; `Q`, it is a page of an area behind. -/
theorem unmap_keeps (start finish : Nat) {P Q : Prop} {lo hi : Nat} (hP : P → lo ≤ x ∧ x < hi) (hQ : Q → hi ≤ x) :
    let r := start ≤ x ∧ x < finish
    (hi ≤ start → (P ∨ Q ∧ ¬ r ↔ (P ∨ Q) ∧ ¬ r)) ∧ (finish ≤ lo → lo < hi → (P ∨ Q ↔ (P ∨ Q) ∧ ¬ r)) ∧
    (start ≤ lo → hi ≤ finish → (Q ∧ ¬ r ↔ (P ∨ Q) ∧ ¬ r)) ∧
    (start ≤ lo → finish < hi → (P ∧ finish ≤ x ∨ Q ↔ (P ∨ Q) ∧ ¬ r)) ∧
    (hi ≤ finish → (P ∧ x < start ∨ Q ∧ ¬ r ↔ (P ∨ Q) ∧ ¬ r)) ∧ (finish < hi → start < finish →
      (P ∧ x < start ∨ P ∧ finish ≤ x ∨ Q ↔ (P ∨ Q) ∧ ¬ r)) := by
  by_cases hp : P <;> by_cases hq : Q <;>
    simp only [hp, hq, true_and, false_and, or_true, true_or, false_or, or_false, forall_true_left,
      true_iff, false_iff, iff_self, implies_true, and_true, false_implies] at hP hQ ⊢ <;>
    omega

/-- What the loop of `vma_unmap` leaves, for a split that is there whenever an area has to be cut in two. -/
theorem vmaUnmapLoop_spec (hs : pgsize ∣ start) (hf : pgsize ∣ finish) (hlt : start < finish) :
    ∀ (areas : List VmArea) (b : Nat) (base refs : Refs) (split : Option VmArea),
      Areas b areas e → (∀ a ∈ areas, AreaWf a) → Balanced base refs areas split →
      (∀ a ∈ areas, a.start < start → finish < a.finish → split = some (a.tail finish)) →
      ∃ refs' areas' split', vmaUnmapLoop start finish refs split areas = (⟨refs', areas'⟩, split') ∧
        Areas b areas' e ∧ (∀ a ∈ areas', AreaWf a) ∧ Balanced base refs' areas' split' ∧
        ∀ x, pgsize ∣ x → ∀ v, Maps areas' x v ↔ Maps areas x v ∧ ¬ (start ≤ x ∧ x < finish) := by
  intro areas
  induction areas with
  | nil =>
    intro b base refs split hc hwf hb _
    exact ⟨refs, [], split, rfl, hc, hwf, hb, fun x _ v => by simp⟩
  | cons a areas ih =>
    intro b base refs split hc hwf hb hsplit
    obtain ⟨h1, h2, h3⟩ := hc
    obtain ⟨hawf, hwf'⟩ := forall_mem_cons.mp hwf
    obtain ⟨hasplit, hsplit'⟩ := forall_mem_cons.mp hsplit
    have hkeeps : ∀ x v, _ := fun x v => unmap_keeps start finish
      (P := a.Has x ∧ a.page x = v) (Q := Maps areas x v) (fun hP => hP.1)
      (fun ⟨c, hcm, hcx, _⟩ => (h3.mem hcm).1.trans hcx.1)
    unfold vmaUnmapLoop
    by_cases c1 : a.finish ≤ start
    · obtain ⟨refs', areas', split', he, hc', hw', hb', hmap⟩ := ih _ _ refs split h3 hwf' hb.cons hsplit'
      simp only [if_pos c1, he]
      refine ⟨refs', a :: areas', split', rfl, ⟨h1, h2, hc'⟩, ?_, hb'.uncons rfl, ?_⟩
      · exact forall_mem_cons.mpr ⟨hawf, hw'⟩
      · intro x hx v
        rw [maps_cons, maps_cons, hmap x hx v]
        exact (hkeeps x v).1 c1
    rw [if_neg c1]
    by_cases c2 : a.start ≥ finish
    · rw [if_pos c2]
      refine ⟨refs, a :: areas, split, rfl, ⟨h1, h2, h3⟩, hwf, hb, fun x _ v => ?_⟩
      rw [maps_cons]
      exact (hkeeps x v).2.1 c2 h2
    rw [if_neg c2]
    by_cases c3 : start ≤ a.start ∧ finish ≥ a.finish
    · -- the whole area goes
      rw [if_pos c3]
      obtain ⟨refs', areas', split', he, hc', hw', hb', hmap⟩ :=
        ih _ _ (vmaRelease refs a) split h3 hwf' hb.release hsplit'
      refine ⟨refs', areas', split', he, hc'.mono_left (h1.trans h2.le), hw', hb', ?_⟩
      intro x hx v
      rw [maps_cons, hmap x hx v]
      exact (hkeeps x v).2.2.1 c3.1 c3.2
    rw [if_neg c3]
    by_cases c4 : start ≤ a.start
    · -- its head goes
      rw [if_pos c4]
      have hlo : a.start < finish := lt_of_not_le c2
      have hhi : finish < a.finish := lt_of_not_le fun hle => c3 ⟨c4, hle⟩
      refine ⟨refs, a.tail finish :: areas, split, rfl, ⟨h1.trans hlo.le, hhi, h3⟩, ?_,
        hb.cons.uncons rfl, ?_⟩
      · exact forall_mem_cons.mpr ⟨hawf.tail hf hlo hhi, hwf'⟩
      · intro x _ v
        rw [maps_cons, maps_cons, tail_maps hawf hlo]
        exact (hkeeps x v).2.2.2.1 c4 hhi
    rw [if_neg c4]
    have hlo : a.start < start := lt_of_not_le c4
    have hcut : start < a.finish := lt_of_not_le c1
    by_cases c5 : finish ≥ a.finish
    · -- its tail goes
      obtain ⟨refs', areas', split', he, hc', hw', hb', hmap⟩ := ih _ _ refs split h3 hwf' hb.cons hsplit'
      simp only [if_pos c5, he]
      refine ⟨refs', a.trim start :: areas', split', rfl, ⟨h1, hlo, hc'.mono_left hcut.le⟩, ?_,
        hb'.uncons rfl, ?_⟩
      · exact forall_mem_cons.mpr ⟨hawf.trim hs hlo hcut, hw'⟩
      · intro x hx v
        rw [maps_cons, maps_cons, trim_maps hs hcut hx, hmap x hx v]
        exact (hkeeps x v).2.2.2.2.1 c5
    · -- its middle goes: the split allocated for this area follows what is kept of it
      rw [if_neg c5]
      have hhi : finish < a.finish := lt_of_not_le c5
      have hlof : a.start < finish := hlo.trans hlt
      obtain rfl := hasplit hlo hhi
      refine ⟨refs, a.trim start :: a.tail finish :: areas, none, rfl,
        ⟨h1, hlo, hlt.le, hhi, h3⟩, ?_, ?_, ?_⟩
      · exact forall_mem_cons.mpr
          ⟨hawf.trim hs hlo hcut, forall_mem_cons.mpr ⟨hawf.tail hf hlof hhi, hwf'⟩⟩
      · intro k
        have hk := hb k
        simp only [Option.toList, cons_append, append_nil, heldRefs_cons, heldRefs_append,
          heldRefs_nil, trim_refs, tail_refs, count_append] at hk ⊢
        omega
      · intro x hx v
        rw [maps_cons, maps_cons, maps_cons, trim_maps hs hcut hx, tail_maps hawf hlof]
        exact (hkeeps x v).2.2.2.2.2 hhi hlt

theorem foldl_release (areas : List VmArea) : ∀ (refs : Refs) (k : RefKey),
    areas.foldl vmaRelease refs k = refs k - (heldRefs areas).count k := by
  induction areas with
  | nil => intro refs k; rfl
  | cons a areas ih =>
    intro refs k
    rw [foldl_cons, ih, heldRefs_cons, count_append, vmaRelease, put_apply]
    omega

theorem Balanced.settle (h : Balanced base refs areas split) {k : RefKey} :
    split.toList.foldl vmaRelease refs k = base k + (heldRefs areas).count k := by
  have hk := h k
  rw [heldRefs_append, count_append] at hk
  rw [foldl_release]
  omega

/-- **`vma_unmap`** changes nothing or removes exactly the pages of its range. -/
theorem vmaUnmap_spec (outcome : Allocation) (h : Inv base s) (start finish : Nat) :
    vmaUnmap outcome s start finish = (s, -1) ∨
    ∃ s', vmaUnmap outcome s start finish = (s', 0) ∧ Inv base s' ∧
      ∀ x, pgsize ∣ x → ∀ v, Maps s'.areas x v ↔ Maps s.areas x v ∧ ¬ (start ≤ x ∧ x < finish) := by
  unfold vmaUnmap
  by_cases hchk : (start ≥ finish || start % pgsize ≠ 0 || finish % pgsize ≠ 0) = true
  · rw [if_pos hchk]
    exact .inl rfl
  rw [if_neg hchk]
  simp only [Bool.or_eq_true, decide_eq_true_eq, ne_eq, not_or, not_not, Nat.not_le] at hchk
  obtain ⟨⟨hlt, hs⟩, hf⟩ := hchk
  -- the loop, once the split is there that it may need
  have hrun : ∀ refs split, Balanced base refs s.areas split →
      (∀ a ∈ s.areas, a.start < start → finish < a.finish → split = some (a.tail finish)) →
      let r := vmaUnmapLoop start finish refs split s.areas
      ∃ s', ((⟨r.2.toList.foldl vmaRelease r.1.refs, r.1.areas⟩ : VmaState), (0 : Int)) = (s', 0) ∧ Inv base s' ∧
        ∀ x, pgsize ∣ x → ∀ v, Maps s'.areas x v ↔ Maps s.areas x v ∧ ¬ (start ≤ x ∧ x < finish) := by
    intro refs split hb hsplit
    obtain ⟨refs', areas', split', he, hc, hw, hb', hmap⟩ :=
      vmaUnmapLoop_spec (dvd_of_mod_eq_zero hs) (dvd_of_mod_eq_zero hf) hlt s.areas 0 base refs
        split h.areas h.wf hb hsplit
    simp only [he]
    exact ⟨_, rfl, ⟨hc, hw, fun k => hb'.settle⟩, hmap⟩
  have hplain : Balanced base s.refs s.areas none := fun k => by
    rw [h.refs k, Option.toList, append_nil]
  have hhas : ∀ a : VmArea, a.start < start → finish < a.finish → a.Has start := fun a h1 h2 =>
    ⟨h1.le, hlt.trans h2⟩
  cases hfind : vmaFind start s.areas with
  | none =>
    right
    refine hrun s.refs none hplain fun a ha h1 h2 => ?_
    exact absurd ⟨a, ha, hhas a h1 h2⟩ ((vmaFind_eq_none h.areas).mp hfind)
  | some area =>
    obtain ⟨harea, hax⟩ := (vmaFind_eq_some h.areas).mp hfind
    have huniq : ∀ a ∈ s.areas, a.start < start → finish < a.finish → a = area := fun a ha h1 h2 =>
      h.areas.unique ha harea (hhas a h1 h2) hax
    by_cases hcut : area.start < start ∧ area.finish > finish
    · simp only [if_pos hcut]
      cases hsp : vmaAllocateSplit outcome s.refs area finish with
      | none => exact .inl rfl
      | some =>
        right
        obtain ⟨refs, halloc, rfl⟩ := map_eq_some_iff.mp hsp
        obtain rfl := vmaAllocate_some halloc
        refine hrun _ _ (fun k => ?_) fun a ha h1 h2 => by rw [huniq a ha h1 h2]
        rw [get_apply, h.refs k]
        simp only [Option.toList, heldRefs_append, heldRefs_cons, heldRefs_nil, append_nil,
          count_append, tail_refs]
        omega
    · simp only [if_neg hcut]
      right
      refine hrun s.refs none hplain fun a ha h1 h2 => ?_
      have he := huniq a ha h1 h2
      exact absurd ⟨he ▸ h1, he ▸ h2⟩ hcut

/-! ## Protecting -/

/-- A second cut further on gives the part the first one would have given there. -/
theorem tail_tail {m n : Nat} (h1 : a.start ≤ m) (h2 : m ≤ n) : (a.tail m).tail n = a.tail n := by
  have hsub : ∀ n d : Nat, (if n > d then n - d else 0) = n - d := fun n d => by split <;> omega
  unfold VmArea.tail
  simp only [hsub, VmArea.mk.injEq, true_and, and_true]
  constructor
  · split <;> omega
  · split <;> omega

/-- Linking a cut-off part in at the area `vma_find` returns. -/
theorem silent_linkSplit (refs : Refs) (hfind : vmaFind address areas = some o) (hcut : pgsize ∣ cut)
    (hlo : o.start < cut) (hhi : cut < o.finish) :
    Silent ⟨refs, areas⟩ ⟨refs.get o.refs, vmaLinkSplit address cut (some (o.tail cut)) areas⟩ := by
  obtain ⟨_, l, r, he, hrep⟩ := vmaFind_place hfind
  unfold vmaLinkSplit
  simp only [hrep]
  rw [he]
  exact silent_split refs l r hcut hlo hhi

/-- The loop of `vma_protect` on a list that has no area across either end of the range. -/
theorem vmaProtectLoop_spec (start finish : Nat) :
    ∀ (areas : List VmArea) (b : Nat),
    Areas b areas e → (∀ a ∈ areas, AreaWf a) →
    (∀ a ∈ areas, ¬ (a.start < start ∧ start < a.finish) ∧ ¬ (a.start < finish ∧ finish < a.finish)) →
    let r := vmaProtectLoop start finish protection areas
    Areas b r e ∧ (∀ a ∈ vmaProtectLoop start finish protection areas, AreaWf a) ∧ heldRefs r = heldRefs areas ∧
    ∀ x v, Maps r x v ↔ ∃ w, Maps areas x w ∧
        v = if start ≤ x ∧ x < finish then { w with protection := protection } else w := by
  intro areas
  induction areas with
  | nil =>
    intro b hc hwf _
    exact ⟨hc, hwf, rfl, fun x v => by simp [vmaProtectLoop]⟩
  | cons a areas ih =>
    intro b hc hwf hcut
    obtain ⟨h1, h2, h3⟩ := hc
    obtain ⟨hawf, hwf'⟩ := forall_mem_cons.mp hwf
    obtain ⟨hacut, hcut'⟩ := forall_mem_cons.mp hcut
    obtain ⟨ih1, ih2, ih3, ih4⟩ := ih a.finish h3 hwf' hcut'
    have hmaps : ∀ x v, (∃ w, Maps (a :: areas) x w ∧
        v = if start ≤ x ∧ x < finish then { w with protection := protection } else w) ↔
        (a.Has x ∧ v = if start ≤ x ∧ x < finish then { a.page x with protection := protection }
          else a.page x) ∨
        ∃ w, Maps areas x w ∧
          v = if start ≤ x ∧ x < finish then { w with protection := protection } else w := by
      intro x v
      simp only [maps_cons, or_and_right, exists_or, and_assoc, exists_and_left, exists_eq_left']
    unfold vmaProtectLoop
    by_cases c1 : a.finish ≤ start
    · rw [if_pos c1]
      refine ⟨⟨h1, h2, ih1⟩, forall_mem_cons.mpr ⟨hawf, ih2⟩, by rw [heldRefs_cons, ih3]; rfl, ?_⟩
      intro x v
      rw [maps_cons, ih4, hmaps]
      refine or_congr (and_congr_right fun hax => ?_) Iff.rfl
      rw [if_neg fun hin => absurd (hax.2.trans_le (c1.trans hin.1)) (lt_irrefl _)]
      exact eq_comm
    rw [if_neg c1]
    by_cases c2 : a.start ≥ finish
    · rw [if_pos c2]
      refine ⟨⟨h1, h2, h3⟩, hwf, rfl, fun x v => ?_⟩
      -- every area from here on is past the range
      have hpast : ∀ w, Maps (a :: areas) x w → ¬ (start ≤ x ∧ x < finish) := by
        rintro w ⟨c, hcm, hcx, _⟩ hin
        have hle : a.start ≤ c.start := by
          cases hcm with
          | head => exact le_refl _
          | tail _ hcm => exact h2.le.trans (h3.mem hcm).1
        exact absurd (hin.2.trans_le (c2.trans (hle.trans hcx.1))) (lt_irrefl _)
      constructor
      · intro hm
        exact ⟨v, hm, by rw [if_neg (hpast v hm)]⟩
      · rintro ⟨w, hm, rfl⟩
        rw [if_neg (hpast w hm)]
        exact hm
    rw [if_neg c2]
    have hs : start ≤ a.start := le_of_not_lt fun hlt => hacut.1 ⟨hlt, lt_of_not_le c1⟩
    have hf : a.finish ≤ finish := le_of_not_lt fun hlt => hacut.2 ⟨lt_of_not_le c2, hlt⟩
    refine ⟨⟨h1, h2, ih1⟩, forall_mem_cons.mpr ⟨?_, ih2⟩, by rw [heldRefs_cons, ih3]; rfl, ?_⟩
    · exact ⟨hawf.start_page, hawf.finish_page, hawf.offset_page, hawf.file_iff, hawf.backing_anonymous,
        hawf.length, hawf.length_zero, hawf.no_wrap⟩
    · intro x v
      rw [maps_cons, ih4, hmaps]
      refine or_congr (and_congr_right fun hax => ?_) Iff.rfl
      rw [if_pos ⟨hs.trans hax.1, hax.2.trans_le hf⟩]
      exact eq_comm

/-- A list with an area that starts at `c` has none across `c`. -/
theorem not_across_start (h : Areas b areas e) (hc : ∃ a ∈ areas, a.start = c) :
    ∀ a ∈ areas, ¬ (a.start < c ∧ c < a.finish) := by
  rintro a ha ⟨h1, h2⟩
  obtain ⟨d, hd, rfl⟩ := hc
  have he := h.unique ha hd ⟨h1.le, h2⟩ ⟨le_refl _, (h.mem hd).2.1⟩
  rw [he] at h1
  exact lt_irrefl _ h1

/-- A list with an area that ends at `c` has none across `c`. -/
theorem not_across_finish (h : Areas b areas e) (hc : ∃ a ∈ areas, a.finish = c) :
    ∀ a ∈ areas, ¬ (a.start < c ∧ c < a.finish) := by
  rintro a ha ⟨h1, h2⟩
  obtain ⟨d, hd, rfl⟩ := hc
  have hdne := (h.mem hd).2.1
  -- both hold the last address below the end
  have he := h.unique (x := d.finish - 1) ha hd ⟨by omega, by omega⟩ ⟨by omega, by omega⟩
  rw [he] at h2
  exact lt_irrefl _ h2

/-- The result of `vmaSplitIf`: no cut needed, or the cut-off part with its references taken. -/
theorem vmaSplitIf_some (h : vmaSplitIf outcome refs a cut needed = some p) :
    (needed = false ∧ p = (refs, none)) ∨ (needed = true ∧ p = (refs.get a.refs, some (a.tail cut))) := by
  unfold vmaSplitIf at h
  cases needed with
  | false => exact .inl ⟨rfl, (some.inj h).symm⟩
  | true =>
    rw [if_pos rfl, map_eq_some_iff] at h
    obtain ⟨q, hq, rfl⟩ := h
    obtain ⟨refs', halloc, rfl⟩ := map_eq_some_iff.mp hq
    rw [vmaAllocate_some halloc]
    exact .inr ⟨rfl, rfl⟩

/-- The cut at the start of the range: silent, it leaves an area that starts there, and the area at the end of
    the range is still the one found before or the part of it past the cut. -/
theorem vmaProtect_startCut {startArea : VmArea} (h : Inv base s) (hlt : start < finish)
    (hs : pgsize ∣ start) (hstart : vmaFind start s.areas = some startArea)
    (hend : vmaFind (finish - 1) s.areas = some endArea)
    (hp : vmaSplitIf outcome s.refs startArea start (decide (start > startArea.start)) = some p) :
    Silent s ⟨p.1, vmaLinkSplit start start p.2 s.areas⟩ ∧
    (∃ a ∈ vmaLinkSplit start start p.2 s.areas, a.start = start) ∧
    ∃ o, vmaFind (finish - 1) (vmaLinkSplit start start p.2 s.areas) = some o ∧
      o.finish = endArea.finish ∧ o.refs = endArea.refs ∧ o.tail finish = endArea.tail finish := by
  obtain ⟨hsm, hsx⟩ := (vmaFind_eq_some h.areas).mp hstart
  rcases vmaSplitIf_some hp with ⟨hneed, rfl⟩ | ⟨hneed, rfl⟩
  · refine ⟨.refl s, ⟨startArea, hsm, ?_⟩, endArea, hend, rfl, rfl, rfl⟩
    exact Nat.le_antisymm hsx.1 (le_of_not_lt (of_decide_eq_false hneed))
  have hlo : startArea.start < start := of_decide_eq_true hneed
  have hsil := silent_linkSplit s.refs hstart hs hlo hsx.2
  obtain ⟨_, l, r, he, hrep⟩ := vmaFind_place hstart
  have hareas : vmaLinkSplit start start (some (startArea.tail start)) s.areas =
      l ++ [startArea.trim start, startArea.tail start] ++ r := hrep _
  have hinv := (hsil base h).1.areas
  obtain ⟨hem, hex⟩ := (vmaFind_eq_some h.areas).mp hend
  simp only [hareas] at hsil hinv ⊢
  refine ⟨hsil, ⟨startArea.tail start, by simp, rfl⟩, ?_⟩
  by_cases hsame : endArea = startArea
  · subst hsame
    refine ⟨endArea.tail start, (vmaFind_eq_some hinv).mpr ⟨by simp, ?_⟩, rfl, rfl,
      tail_tail hlo.le hlt.le⟩
    exact ⟨le_sub_one_of_lt hlt, hex.2⟩
  refine ⟨endArea, (vmaFind_eq_some hinv).mpr ⟨?_, hex⟩, rfl, rfl, rfl⟩
  rw [he] at hem
  simp only [mem_append, mem_singleton, hsame, or_false] at hem
  simp only [mem_append]
  tauto

/-- The cut at the end of the range, which keeps an area that starts at its start. -/
theorem vmaProtect_endCut (h : Inv base ⟨refs, areas⟩) (hlt : start < finish) (hf : pgsize ∣ finish)
    (hstart : ∃ a ∈ areas, a.start = start) (hfind : vmaFind (finish - 1) areas = some o)
    (hfin : o.finish = endArea.finish) (hrefs : o.refs = endArea.refs)
    (htail : o.tail finish = endArea.tail finish)
    (hp : vmaSplitIf outcome refs endArea finish (decide (finish < endArea.finish)) = some p) :
    Silent ⟨refs, areas⟩ ⟨p.1, vmaLinkSplit (finish - 1) finish p.2 areas⟩ ∧
    (∃ a ∈ vmaLinkSplit (finish - 1) finish p.2 areas, a.start = start) ∧
    ∃ a ∈ vmaLinkSplit (finish - 1) finish p.2 areas, a.finish = finish := by
  obtain ⟨hom, hox⟩ := (vmaFind_eq_some h.areas).mp hfind
  obtain ⟨hox1, hox2⟩ := hox
  rcases vmaSplitIf_some hp with ⟨hneed, rfl⟩ | ⟨hneed, rfl⟩
  · refine ⟨.refl _, hstart, o, hom, ?_⟩
    have := of_decide_eq_false hneed
    omega
  have hhi : finish < o.finish := hfin ▸ of_decide_eq_true hneed
  have hlo : o.start < finish := by omega
  have hsil := silent_linkSplit refs hfind hf hlo hhi
  obtain ⟨_, l, r, he, hrep⟩ := vmaFind_place hfind
  have hareas : vmaLinkSplit (finish - 1) finish (some (o.tail finish)) areas =
      l ++ [o.trim finish, o.tail finish] ++ r := hrep _
  rw [htail, hrefs] at hsil
  rw [htail] at hareas
  simp only [hareas] at hsil ⊢
  refine ⟨hsil, ?_, o.trim finish, by simp, rfl⟩
  obtain ⟨a, ha, hastart⟩ := hstart
  rw [he] at ha
  simp only [mem_append, mem_singleton] at ha
  rcases ha with (ha | rfl) | ha
  · exact ⟨a, by simp [ha], hastart⟩
  · exact ⟨a.trim finish, by simp, hastart⟩
  · exact ⟨a, by simp [ha], hastart⟩

/-- Setting the protection of a list with no area across the ends of the range. -/
theorem Inv.protect (h : Inv base ⟨refs, areas⟩) (hstart : ∃ a ∈ areas, a.start = start)
    (hfinish : ∃ a ∈ areas, a.finish = finish) :
    Inv base ⟨refs, vmaProtectLoop start finish protection areas⟩ ∧
    ∀ x v, Maps (vmaProtectLoop start finish protection areas) x v ↔
      ∃ w, Maps areas x w ∧
        v = if start ≤ x ∧ x < finish then { w with protection := protection } else w := by
  obtain ⟨h1, h2, h3, h4⟩ := vmaProtectLoop_spec start finish areas 0 h.areas h.wf
    fun a ha => ⟨not_across_start h.areas hstart a ha, not_across_finish h.areas hfinish a ha⟩
  refine ⟨⟨h1, h2, fun k => ?_⟩, h4⟩
  rw [h3]
  exact h.refs k

/-- Giving a part back right after it was allocated undoes the allocation. -/
theorem vmaSplitIf_release (h : vmaSplitIf outcome refs a cut needed = some p) :
    p.2.toList.foldl vmaRelease p.1 = refs := by
  rcases vmaSplitIf_some h with ⟨_, rfl⟩ | ⟨_, rfl⟩
  · rfl
  · funext k
    simp only [Option.toList, foldl_cons, foldl_nil, vmaRelease, put_apply, get_apply, tail_refs]
    omega

/-- **`vma_protect`** changes nothing, or sets the protection of exactly the pages of its range, all
    mapped. -/
theorem vmaProtect_spec (startOutcome endOutcome : Allocation) (h : Inv base s)
    (start finish protection : Nat) :
    vmaProtect startOutcome endOutcome s start finish protection = (s, -1) ∨
    ∃ s', vmaProtect startOutcome endOutcome s start finish protection = (s', 0) ∧ Inv base s' ∧
      (∀ x, start ≤ x → x < finish → ∃ a ∈ s.areas, a.Has x) ∧
      ∀ x, pgsize ∣ x → ∀ v, Maps s'.areas x v ↔
        ∃ w, Maps s.areas x w ∧
          v = if start ≤ x ∧ x < finish then { w with protection := protection } else w := by
  unfold vmaProtect
  by_cases hchk : (start ≥ finish || start % pgsize ≠ 0 || finish % pgsize ≠ 0 ||
      !vmaRangeMapped s.areas start finish) = true
  · rw [if_pos hchk]
    exact .inl rfl
  rw [if_neg hchk]
  simp only [Bool.or_eq_true, decide_eq_true_eq, ne_eq, not_or, not_not, Nat.not_le, Bool.not_eq_true',
    Bool.not_eq_false] at hchk
  obtain ⟨⟨⟨hlt, hs⟩, hf⟩, hmapped⟩ := hchk
  have hcover := ((vmaRangeMapped_iff h.areas).mp hmapped).2
  cases hstart : vmaFind start s.areas with
  | none => exact .inl rfl
  | some startArea =>
    cases hend : vmaFind (finish - 1) s.areas with
    | none => exact .inl rfl
    | some endArea =>
      simp only
      cases hp : vmaSplitIf startOutcome s.refs startArea start (decide (start > startArea.start)) with
      | none => exact .inl rfl
      | some p =>
        simp only
        cases hq : vmaSplitIf endOutcome p.1 endArea finish (decide (finish < endArea.finish)) with
        | none =>
          left
          simp only [vmaSplitIf_release hp]
        | some =>
          right
          obtain ⟨hsil, hat, o, hfind, hfin, hrefs, htail⟩ :=
            vmaProtect_startCut h hlt (dvd_of_mod_eq_zero hs) hstart hend hp
          obtain ⟨hinv, hmap⟩ := hsil base h
          obtain ⟨hsil', hat', hto⟩ :=
            vmaProtect_endCut hinv hlt (dvd_of_mod_eq_zero hf) hat hfind hfin hrefs htail hq
          obtain ⟨hinv', hmap'⟩ := hsil' base hinv
          obtain ⟨hinv₃, hmap₃⟩ := hinv'.protect hat' hto
          obtain ⟨hinv₄, hmap₄⟩ := silent_mergeAll _ base hinv₃
          refine ⟨_, rfl, hinv₄, hcover, fun x hx v => ?_⟩
          rw [hmap₄ x hx v, hmap₃ x v]
          refine exists_congr fun w => and_congr_left fun _ => ?_
          exact (hmap' x hx w).trans (hmap x hx w)

end Caffeinix.Vma
