import Caffeinix.Lib.Intervals
import Caffeinix.Vma.Set

/-!
# `Vma.PageMap` — what a list of areas means

The meaning of a VMA set is a partial map from page addresses to page attributes (`PageAttr`), among them
the file or backing offset the page maps and the number of its bytes that come from the file. The
areas are only a representation: `Silent s s'` says that a step of the code changes the representation and
keeps both the invariant and the meaning. Cutting an area and merging two are silent (`silent_split`,
`silent_merge`), hence so are `vma_merge_all` and the links that insert a split part.
-/

namespace Caffeinix.Vma

open Nat List Intervals VmArea

/-- An area whose fields are consistent. -/
structure AreaWf (a : VmArea) : Prop where
  start_page : pgsize ∣ a.start
  finish_page : pgsize ∣ a.finish
  offset_page : pgsize ∣ a.offset
  file_iff : a.file.isSome ↔ a.origin = .fileBacked
  backing_anonymous : a.backing.isSome → a.origin = .anonymous
  length : a.fileLength ≤ a.finish - a.start
  length_zero : a.origin = .anonymous → a.fileLength = 0
  no_wrap : a.origin = .fileBacked ∨ a.backing.isSome → a.offset + (a.finish - a.start) ≤ uint64Max

/-- What is mapped at one page. -/
structure PageAttr where
  protection : Nat
  flags : Nat
  origin : VmaOrigin
  usage : VmaUsage
  file : Option VfsFile
  backing : Option VmaBacking
  /-- the offset in the file or backing, for a page that has one -/
  offset : Option Nat
  /-- how many bytes of the page lie below the area's `file_length` -/
  bytes : Nat
deriving DecidableEq

/-- The area maps its addresses to something with offsets. -/
def VmArea.HasOffset (a : VmArea) : Prop := a.origin = .fileBacked ∨ a.backing.isSome

instance (a : VmArea) : Decidable a.HasOffset := inferInstanceAs (Decidable (_ ∨ _))

/-- The attributes of the page at `x` in the area. -/
def VmArea.page (a : VmArea) (x : Nat) : PageAttr :=
  { protection := a.protection
    flags := a.flags
    origin := a.origin
    usage := a.usage
    file := a.file
    backing := a.backing
    offset := if a.HasOffset then some (a.offset + (x - a.start)) else none
    bytes := min pgsize (a.fileLength - (x - a.start)) }

/-- The area holds the address. -/
abbrev VmArea.Has (a : VmArea) (x : Nat) : Prop := Meets start finish a x

/-- The page at `x` is mapped with attributes `v`. -/
def Maps (areas : List VmArea) (x : Nat) (v : PageAttr) : Prop := ∃ a ∈ areas, a.Has x ∧ a.page x = v

/-- Sorted, non-empty, disjoint areas from `b` to `e`. -/
abbrev Areas (b : Nat) (areas : List VmArea) (e : Nat) : Prop :=
  Chain start finish b areas e

/-- The counters all areas of a list hold. -/
def heldRefs (areas : List VmArea) : List RefKey := areas.flatMap refs

/-- **The invariant of one set**, given the counts others hold (`base`). -/
structure Inv (base : Refs) (s : VmaState) : Prop where
  areas : Areas 0 s.areas maxva
  wf : ∀ a ∈ s.areas, AreaWf a
  refs : ∀ k, s.refs k = base k + (heldRefs s.areas).count k

/-- The same pages are mapped, with the same attributes. -/
def SameMap (l l' : List VmArea) : Prop := ∀ x, pgsize ∣ x → ∀ v, Maps l' x v ↔ Maps l x v

/-- A step that keeps the invariant and the meaning. -/
def Silent (s s' : VmaState) : Prop := ∀ base, Inv base s → Inv base s' ∧ SameMap s.areas s'.areas

variable {s s' s'' : VmaState} {a b : VmArea} {l r : List VmArea} {x : Nat} {v : PageAttr} {refs : Refs}

/-! ## `Maps` and counters along lists -/

@[simp] theorem maps_nil : ¬ Maps [] x v := by
  rintro ⟨a, ha, _⟩
  exact absurd ha (by simp)

theorem maps_cons : Maps (a :: l) x v ↔ (a.Has x ∧ a.page x = v) ∨ Maps l x v := by
  simp only [Maps, mem_cons, exists_eq_or_imp]

theorem maps_append : Maps (l ++ r) x v ↔ Maps l x v ∨ Maps r x v := by
  simp only [Maps, mem_append, or_and_right, exists_or]

/-- A page has one set of attributes. -/
theorem Maps.unique {areas : List VmArea} {v' : PageAttr} {c e : Nat} (h : Areas c areas e)
    (hv : Maps areas x v) (hv' : Maps areas x v') : v = v' := by
  obtain ⟨a, ha, hax, rfl⟩ := hv
  obtain ⟨b, hb, hbx, rfl⟩ := hv'
  rw [h.unique ha hb hax hbx]

@[simp] theorem heldRefs_nil : heldRefs [] = [] := rfl

@[simp] theorem heldRefs_cons : heldRefs (a :: l) = a.refs ++ heldRefs l := rfl

@[simp] theorem heldRefs_append : heldRefs (l ++ r) = heldRefs l ++ heldRefs r := flatMap_append ..

variable (keys : List RefKey) (k : RefKey)

@[simp] theorem get_apply : refs.get keys k = refs k + keys.count k := rfl

@[simp] theorem put_apply : refs.put keys k = refs k - keys.count k := rfl

theorem SameMap.refl (l : List VmArea) : SameMap l l := fun _ _ _ => .rfl

variable {m m' : List VmArea}

theorem SameMap.trans (h : SameMap l r) (h' : SameMap r m) : SameMap l m :=
  fun x hx v => (h' x hx v).trans (h x hx v)

theorem SameMap.middle (h : SameMap m m') : SameMap (l ++ m ++ r) (l ++ m' ++ r) := by
  intro x hx v
  simp only [maps_append, h x hx v]

theorem Silent.refl (s : VmaState) : Silent s s := fun _ h => ⟨h, .refl _⟩

theorem Silent.trans (h : Silent s s') (h' : Silent s' s'') : Silent s s'' := by
  intro base hb
  obtain ⟨h1, h2⟩ := h base hb
  obtain ⟨h3, h4⟩ := h' base h1
  exact ⟨h3, h2.trans h4⟩

/-- Areas `m` of a list replaced by `m'` in the same place. -/
theorem Inv.middle {base refs' : Refs} (h : Inv base ⟨refs, l ++ m ++ r⟩)
    (hm : ∀ b e, Areas b m e → Areas b m' e) (hwf : ∀ a ∈ m', AreaWf a)
    (hrefs : ∀ k, (heldRefs m).count k ≤ refs k → refs' k + (heldRefs m).count k = refs k + (heldRefs m').count k) :
    Inv base ⟨refs', l ++ m' ++ r⟩ := by
  refine ⟨?_, ?_, ?_⟩
  · have hc := h.areas
    simp only [chain_append] at hc ⊢
    obtain ⟨e, ⟨b, hl, hmid⟩, hr⟩ := hc
    exact ⟨e, ⟨b, hl, hm b e hmid⟩, hr⟩
  · intro a ha
    simp only [mem_append] at ha
    rcases ha with (ha | ha) | ha
    · exact h.wf a (by simp [ha])
    · exact hwf a ha
    · exact h.wf a (by simp [ha])
  · intro k
    have hk := h.refs k
    simp only [heldRefs_append, count_append] at hk ⊢
    have hle : (heldRefs m).count k ≤ refs k := by omega
    have := hrefs k hle
    omega

/-! ## Cutting an area -/

theorem page_step {m : Nat} (hx : pgsize ∣ x) (hm : pgsize ∣ m) (hlt : x < m) : x + pgsize ≤ m := by
  obtain ⟨i, rfl⟩ := hx
  obtain ⟨j, rfl⟩ := hm
  have hij : i + 1 ≤ j := Nat.lt_of_mul_lt_mul_left hlt
  calc pgsize * i + pgsize = pgsize * (i + 1) := rfl
    _ ≤ pgsize * j := Nat.mul_le_mul_left _ hij

section Cut

variable {m : Nat} (h : AreaWf a) (hm : pgsize ∣ m) (hlo : a.start < m) (hhi : m < a.finish)

@[simp] theorem trim_refs : (a.trim m).refs = a.refs := rfl

@[simp] theorem tail_refs : (a.tail m).refs = a.refs := rfl

include h in
theorem tail_fileLength : (a.tail m).fileLength = a.fileLength - (m - a.start) := by
  show (if a.origin = .fileBacked then _ else a.fileLength) = _
  cases ho : a.origin with
  | anonymous => rw [h.length_zero ho]; simp
  | fileBacked => simp only [if_true]; split <;> omega

theorem trim_fileLength : (a.trim m).fileLength = min a.fileLength (m - a.start) := by
  show (if _ then _ else _) = _
  split <;> omega

theorem tail_offset (ho : a.HasOffset) : (a.tail m).offset = a.offset + (m - a.start) := if_pos ho

include h hm hlo hhi in
theorem AreaWf.trim : AreaWf (a.trim m) where
  start_page := h.start_page
  finish_page := hm
  offset_page := h.offset_page
  file_iff := h.file_iff
  backing_anonymous := h.backing_anonymous
  length := by
    rw [trim_fileLength]
    exact min_le_right _ _
  length_zero := fun ho => by
    rw [trim_fileLength, h.length_zero ho]
    exact Nat.zero_min _
  no_wrap := fun ho => by
    have hw := h.no_wrap ho
    show a.offset + (m - a.start) ≤ uint64Max
    omega

include h hm hlo hhi in
theorem AreaWf.tail : AreaWf (a.tail m) where
  start_page := hm
  finish_page := h.finish_page
  offset_page := by
    by_cases ho : a.HasOffset
    · rw [tail_offset ho]
      exact Nat.dvd_add h.offset_page (Nat.dvd_sub hm h.start_page)
    · have : (a.tail m).offset = a.offset := if_neg ho
      rw [this]
      exact h.offset_page
  file_iff := h.file_iff
  backing_anonymous := h.backing_anonymous
  length := by
    have := h.length
    rw [tail_fileLength h]
    show _ ≤ a.finish - m
    omega
  length_zero := fun ho => by
    rw [tail_fileLength h, h.length_zero ho]
    exact Nat.zero_sub _
  no_wrap := fun ho => by
    have hw := h.no_wrap ho
    rw [tail_offset (a := a) ho]
    show _ + (a.finish - m) ≤ uint64Max
    omega

include hm in
/-- The kept part maps its pages as before. -/
theorem trim_page (hx : pgsize ∣ x) (hax : a.start ≤ x) (hlt : x < m) : (a.trim m).page x = a.page x := by
  have hstep := page_step hx hm hlt
  simp only [page, trim_fileLength, PageAttr.mk.injEq]
  refine ⟨rfl, rfl, rfl, rfl, rfl, rfl, rfl, ?_⟩
  show min pgsize (min a.fileLength (m - a.start) - (x - a.start)) = _
  omega

include h hlo in
/-- The part cut off maps its pages as before: its offset and file length have moved with its start. -/
theorem tail_page (hmx : m ≤ x) : (a.tail m).page x = a.page x := by
  simp only [page, tail_fileLength h, PageAttr.mk.injEq]
  refine ⟨rfl, rfl, rfl, rfl, rfl, rfl, ?_, ?_⟩
  · by_cases ho : a.HasOffset
    · have ho' : (a.tail m).HasOffset := ho
      rw [if_pos ho, if_pos ho', tail_offset ho]
      show some (a.offset + (m - a.start) + (x - m)) = _
      congr 1
      omega
    · have ho' : ¬ (a.tail m).HasOffset := ho
      rw [if_neg ho, if_neg ho']
  · show min pgsize (a.fileLength - (m - a.start) - (x - m)) = _
    omega

include hm hhi in
theorem trim_maps (hx : pgsize ∣ x) :
    (a.trim m).Has x ∧ (a.trim m).page x = v ↔ (a.Has x ∧ a.page x = v) ∧ x < m := by
  constructor
  · rintro ⟨⟨h1, h2⟩, h3⟩
    exact ⟨⟨⟨h1, lt_trans h2 hhi⟩, (trim_page (a := a) hm hx h1 h2).symm.trans h3⟩, h2⟩
  · rintro ⟨⟨⟨h1, _⟩, h3⟩, h2⟩
    exact ⟨⟨h1, h2⟩, (trim_page hm hx h1 h2).trans h3⟩

include h hlo in
theorem tail_maps :
    (a.tail m).Has x ∧ (a.tail m).page x = v ↔ (a.Has x ∧ a.page x = v) ∧ m ≤ x := by
  constructor
  · rintro ⟨⟨h1, h2⟩, h3⟩
    exact ⟨⟨⟨hlo.le.trans h1, h2⟩, (tail_page h hlo h1).symm.trans h3⟩, h1⟩
  · rintro ⟨⟨⟨_, h2⟩, h3⟩, h1⟩
    exact ⟨⟨h1, h2⟩, (tail_page h hlo h1).trans h3⟩

include h hm hlo hhi in
/-- An area and its two parts map the same pages. -/
theorem split_sameMap : SameMap [a] [a.trim m, a.tail m] := by
  intro x hx v
  simp only [maps_cons, maps_nil, or_false, trim_maps hm hhi hx, tail_maps h hlo, ← and_or_left]
  exact and_iff_left (lt_or_ge x m)

end Cut

/-- **Cutting an area is silent** once the new part's references are taken. -/
theorem silent_split (refs : Refs) (l r : List VmArea) {m : Nat} (hm : pgsize ∣ m) (hlo : a.start < m)
    (hhi : m < a.finish) : Silent ⟨refs, l ++ [a] ++ r⟩ ⟨refs.get a.refs, l ++ [a.trim m, a.tail m] ++ r⟩ := by
  intro base hb
  have h : AreaWf a := hb.wf a (by simp)
  refine ⟨hb.middle ?_ ?_ ?_, (split_sameMap h hm hlo hhi).middle⟩
  · rintro b e ⟨h1, _, h3⟩
    exact ⟨h1, hlo, le_refl m, hhi, h3⟩
  · intro c hc
    simp only [mem_cons, not_mem_nil, or_false] at hc
    rcases hc with rfl | rfl
    · exact h.trim hm hlo hhi
    · exact h.tail hm hlo hhi
  · intro k _
    simp only [heldRefs_cons, heldRefs_nil, trim_refs, tail_refs, append_nil, count_append,
      get_apply]
    omega

/-! ## Merging two areas -/

theorem vmaCanMerge_iff : vmaCanMerge a b = true ↔
    a.finish = b.start ∧ a.protection = b.protection ∧ a.flags = b.flags ∧ a.origin = b.origin ∧
    a.usage = b.usage ∧ a.file = b.file ∧ a.backing = b.backing ∧
    (a.origin = .fileBacked → a.fileLength = a.finish - a.start) ∧
    (a.HasOffset → a.offset ≤ a.nextOffset ∧ a.nextOffset = b.offset) := by
  unfold vmaCanMerge VmArea.HasOffset
  by_cases hf : a.origin = .fileBacked <;> by_cases hb : a.backing.isSome <;>
    simp [hf, hb] <;> tauto

/-- Below `2^64` the next offset is the plain sum. -/
theorem nextOffset_eq (h : AreaWf a) (hne : a.start < a.finish) (ho : a.HasOffset) :
    a.nextOffset = a.offset + (a.finish - a.start) := by
  have hw := h.no_wrap ho
  unfold nextOffset
  unfold uint64Max at hw
  rw [mod_eq_of_lt (by omega)]
  omega

section Merge

variable (ha : AreaWf a) (hb : AreaWf b) (hane : a.start < a.finish) (hbne : b.start < b.finish)
  (hcan : vmaCanMerge a b = true)

include hcan in
theorem canMerge_hasOffset : a.HasOffset ↔ b.HasOffset := by
  obtain ⟨_, _, _, ho, _, _, hk, _⟩ := vmaCanMerge_iff.mp hcan
  unfold VmArea.HasOffset
  rw [ho, hk]

include ha hane hcan in
theorem canMerge_offset (ho : a.HasOffset) : b.offset = a.offset + (a.finish - a.start) := by
  obtain ⟨_, _, _, _, _, _, _, _, hoff⟩ := vmaCanMerge_iff.mp hcan
  rw [← (hoff ho).2, nextOffset_eq ha hane ho]

include hb hcan in
theorem vmaMergePair_fileLength : (vmaMergePair a b).fileLength = a.fileLength + b.fileLength := by
  obtain ⟨_, _, _, ho, _⟩ := vmaCanMerge_iff.mp hcan
  show (if a.origin = .fileBacked then _ else a.fileLength) = _
  cases hao : a.origin with
  | fileBacked => rfl
  | anonymous =>
    rw [hb.length_zero (ho.symm.trans hao), if_neg (by simp)]
    rfl

include ha hb hane hbne hcan in
theorem AreaWf.merge : AreaWf (vmaMergePair a b) := by
  obtain ⟨hadj, _, _, ho, _, _, hk, hlen, _⟩ := vmaCanMerge_iff.mp hcan
  have hla := ha.length
  have hlb := hb.length
  refine ⟨ha.start_page, hb.finish_page, ha.offset_page, ha.file_iff, ha.backing_anonymous, ?_, ?_, ?_⟩
  · rw [vmaMergePair_fileLength hb hcan]
    show _ ≤ b.finish - a.start
    omega
  · intro hao
    rw [vmaMergePair_fileLength hb hcan, ha.length_zero hao, hb.length_zero (ho.symm.trans hao)]
  · intro hao
    have hw := hb.no_wrap ((canMerge_hasOffset hcan).mp hao)
    rw [canMerge_offset ha hane hcan hao] at hw
    show a.offset + (b.finish - a.start) ≤ uint64Max
    omega

include ha hb hane hbne hcan in
/-- Two areas that merge map the same pages before and after. -/
theorem merge_sameMap : SameMap [a, b] [vmaMergePair a b] := by
  obtain ⟨hadj, hp, hfl, ho, hu, hf, hk, hlen, _⟩ := vmaCanMerge_iff.mp hcan
  have hfile := vmaMergePair_fileLength hb hcan
  have hzero : a.origin ≠ .fileBacked → a.fileLength = 0 ∧ b.fileLength = 0 := fun hne => by
    have hao : a.origin = .anonymous := by
      cases h : a.origin with
      | anonymous => rfl
      | fileBacked => exact absurd h hne
    exact ⟨ha.length_zero hao, hb.length_zero (ho.symm.trans hao)⟩
  have hleft : ∀ x, pgsize ∣ x → a.start ≤ x → x < a.finish → (vmaMergePair a b).page x = a.page x := by
    intro x hx h1 h2
    have hstep := page_step hx ha.finish_page h2
    simp only [page, hfile, PageAttr.mk.injEq]
    refine ⟨rfl, rfl, rfl, rfl, rfl, rfl, rfl, ?_⟩
    show min pgsize (a.fileLength + b.fileLength - (x - a.start)) = _
    by_cases hao : a.origin = .fileBacked
    · have := hlen hao
      omega
    · obtain ⟨h3, h4⟩ := hzero hao
      omega
  have hright : ∀ x, b.start ≤ x → (vmaMergePair a b).page x = b.page x := by
    intro x h1
    simp only [page, hfile, PageAttr.mk.injEq]
    refine ⟨hp, hfl, ho, hu, hf, hk, ?_, ?_⟩
    · by_cases hao : a.HasOffset
      · have hao' : (vmaMergePair a b).HasOffset := hao
        rw [if_pos hao', if_pos ((canMerge_hasOffset hcan).mp hao), canMerge_offset ha hane hcan hao]
        show some (a.offset + (x - a.start)) = _
        congr 1
        omega
      · have hao' : ¬ (vmaMergePair a b).HasOffset := hao
        rw [if_neg hao', if_neg (fun hbo => hao ((canMerge_hasOffset hcan).mpr hbo))]
    · show min pgsize (a.fileLength + b.fileLength - (x - a.start)) = _
      by_cases hao : a.origin = .fileBacked
      · have := hlen hao
        omega
      · obtain ⟨h3, h4⟩ := hzero hao
        omega
  intro x hx v
  simp only [maps_cons, maps_nil, or_false]
  constructor
  · rintro ⟨⟨h1, h2⟩, h3⟩
    by_cases hxa : x < a.finish
    · left
      exact ⟨⟨h1, hxa⟩, (hleft x hx h1 hxa).symm.trans h3⟩
    · right
      have hbx : b.start ≤ x := by omega
      exact ⟨⟨hbx, h2⟩, (hright x hbx).symm.trans h3⟩
  · rintro (⟨⟨h1, h2⟩, h3⟩ | ⟨⟨h1, h2⟩, h3⟩)
    · refine ⟨⟨h1, ?_⟩, (hleft x hx h1 h2).trans h3⟩
      show x < b.finish
      omega
    · refine ⟨⟨?_, h2⟩, (hright x h1).trans h3⟩
      show a.start ≤ x
      omega

end Merge

/-- **Merging two areas is silent** once the second one's references are given back. -/
theorem silent_merge (refs : Refs) (l r : List VmArea) (hcan : vmaCanMerge a b = true) :
    Silent ⟨refs, l ++ [a, b] ++ r⟩ ⟨vmaRelease refs b, l ++ [vmaMergePair a b] ++ r⟩ := by
  intro base h
  have ha : AreaWf a := h.wf a (by simp)
  have hb : AreaWf b := h.wf b (by simp)
  have hane := (h.areas.mem (a := a) (by simp)).2.1
  have hbne := (h.areas.mem (a := b) (by simp)).2.1
  refine ⟨h.middle ?_ ?_ ?_, (merge_sameMap ha hb hane hbne hcan).middle⟩
  · rintro c e ⟨h1, h2, h3, h4, h5⟩
    exact ⟨h1, (h2.trans_le h3).trans h4, h5⟩
  · intro c hc
    rw [mem_singleton.mp hc]
    exact ha.merge hb hane hbne hcan
  · intro k hk
    have hrefs : (vmaMergePair a b).refs = a.refs := rfl
    simp only [heldRefs_cons, heldRefs_nil, append_nil, count_append, vmaRelease, put_apply,
      hrefs] at hk ⊢
    omega

/-- The loop of `vma_merge_all` is silent, whatever areas precede it. -/
theorem silent_mergeFrom {rest : List VmArea} : ∀ (refs : Refs) (l : List VmArea) (a : VmArea),
    Silent ⟨refs, l ++ a :: rest⟩ ⟨(vmaMergeFrom refs a rest).refs, l ++ (vmaMergeFrom refs a rest).areas⟩ := by
  induction rest with
  | nil => intro refs l a; exact .refl _
  | cons b rest ih =>
    intro refs l a
    unfold vmaMergeFrom
    cases hcan : vmaCanMerge a b with
    | true =>
      have hstep := silent_merge refs l rest hcan
      simp only [if_true, append_assoc, cons_append, nil_append] at hstep ⊢
      exact hstep.trans (ih _ l _)
    | false =>
      have hstep := ih refs (l ++ [a]) b
      simp only [Bool.false_eq_true, if_false, append_assoc, cons_append,
        nil_append] at hstep ⊢
      exact hstep

/-- **`vma_merge_all` is silent.** -/
theorem silent_mergeAll (s : VmaState) : Silent s (vmaMergeAll s) := by
  obtain ⟨refs, areas⟩ := s
  cases areas with
  | nil => exact .refl _
  | cons a => exact silent_mergeFrom refs [] a

end Caffeinix.Vma
