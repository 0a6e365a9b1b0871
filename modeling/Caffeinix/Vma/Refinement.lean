import Caffeinix.Vma.World

/-!
# `Vma.Refinement` — VMA sets refine partial maps from pages to attributes

The abstract state of a set is a partial map from page addresses to `PageAttr`. `VmaOp.Means` says what each
call does to the maps of all sets; `vma_refines_pageMap` shows that in every reachable world every successful
call does exactly that, and that the lookups answer from the map.
-/

namespace Caffeinix.Vma

open Option Function Intervals VmaWorld

variable {Handle : Type} [Fintype Handle] [DecidableEq Handle]

/-- The map of a list of areas: the attributes of the first area that holds the page. -/
def pageMap (areas : List VmArea) (x : Nat) : Option PageAttr :=
  (areas.find? fun a => a.start ≤ x && x < a.finish).map fun a => a.page x

/-- The maps of all sets. -/
def VmaWorld.pages (w : VmaWorld Handle) (set : Handle) (x : Nat) : Option PageAttr := pageMap (w.sets set) x

variable {areas l r : List VmArea} {b e x : Nat} {v : PageAttr} {w : VmaWorld Handle} {base : Refs}

theorem pageMap_eq_some (h : Areas b areas e) : pageMap areas x = some v ↔ Maps areas x v := by
  have hhas : ∀ a : VmArea, (decide (a.start ≤ x) && decide (x < a.finish)) = true ↔ a.Has x := fun a => by
    rw [Bool.and_eq_true, decide_eq_true_eq, decide_eq_true_eq]
    exact .rfl
  unfold pageMap
  rw [map_eq_some_iff]
  constructor
  · rintro ⟨a, hfind, hv⟩
    have hax := List.find?_some hfind
    exact ⟨a, List.mem_of_find?_eq_some hfind, (hhas a).mp hax, hv⟩
  · rintro ⟨a, ha, hax, hv⟩
    cases hfind : areas.find? (fun a => decide (a.start ≤ x) && decide (x < a.finish)) with
    | none => exact absurd ((hhas a).mpr hax) (by simpa using List.find?_eq_none.mp hfind a ha)
    | some c =>
      have hcx : c.Has x := by
        have hdec := List.find?_some hfind
        exact (hhas c).mp hdec
      rw [h.unique ha (List.mem_of_find?_eq_some hfind) hax hcx] at hv
      exact ⟨c, rfl, hv⟩

theorem pageMap_eq_none (h : Areas b areas e) : pageMap areas x = none ↔ ¬ ∃ a ∈ areas, a.Has x := by
  rw [eq_none_iff_forall_ne_some]
  constructor
  · rintro hn ⟨a, ha, hax⟩
    exact hn (a.page x) ((pageMap_eq_some h).mpr ⟨a, ha, hax, rfl⟩)
  · intro hn v hv
    obtain ⟨a, ha, hax, _⟩ := (pageMap_eq_some h).mp hv
    exact hn ⟨a, ha, hax⟩

/-- A map is known once it is known what it maps to what. -/
theorem pageMap_eq_of {o : Option PageAttr} (h : Areas b areas e) (ho : ∀ v, Maps areas x v ↔ o = some v) :
    pageMap areas x = o := by
  refine Option.ext fun v => ?_
  rw [pageMap_eq_some h, ho]

theorem SameMap.pageMap_eq {b' e' : Nat} (h : SameMap l r) (hl : Areas b l e) (hr : Areas b' r e')
    (hx : pgsize ∣ x) : pageMap r x = pageMap l x :=
  pageMap_eq_of hr fun v => (h x hx v).trans (pageMap_eq_some hl).symm

/-! ## Addresses and pages -/

theorem pgrounddown_dvd : pgsize ∣ pgrounddown x := Nat.dvd_sub_mod x

theorem le_pgrounddown {c : Nat} (hc : pgsize ∣ c) : c ≤ pgrounddown x ↔ c ≤ x := by
  unfold pgrounddown
  obtain ⟨n, rfl⟩ := hc
  have hdiv := Nat.div_add_mod x pgsize
  constructor
  · exact fun h => h.trans (Nat.sub_le _ _)
  · intro h
    have hn : n ≤ x / pgsize := (Nat.le_div_iff_mul_le pgsize_pos).mpr (by rwa [Nat.mul_comm])
    have := Nat.mul_le_mul_left pgsize hn
    omega

/-- Page-aligned areas hold an address exactly when they hold its page. -/
theorem AreaWf.has_pgrounddown {a : VmArea} (h : AreaWf a) : a.Has (pgrounddown x) ↔ a.Has x := by
  have hs := le_pgrounddown (x := x) h.start_page
  have hf := le_pgrounddown (x := x) h.finish_page
  unfold VmArea.Has Meets
  omega

theorem covered_iff (h : ∀ a ∈ areas, AreaWf a) :
    (∃ a ∈ areas, a.Has (pgrounddown x)) ↔ ∃ a ∈ areas, a.Has x :=
  exists_congr fun a => and_congr_right fun ha => (h a ha).has_pgrounddown

/-! ## What each call means -/

/-- Only the map of `set` changes, and it becomes `m` on pages. -/
def MapBecomes (M M' : Handle → Nat → Option PageAttr) (set : Handle) (m : Nat → Option PageAttr) : Prop :=
  ∀ other x, pgsize ∣ x → M' other x = if other = set then m x else M other x

/-- What a successful call does to the maps. -/
def VmaOp.Means (M M' : Handle → Nat → Option PageAttr) : VmaOp Handle → Prop
  | .insert set _ start finish protection flags origin usage file offset =>
    (∀ x, pgsize ∣ x → start ≤ x → x < finish → M set x = none) ∧
    MapBecomes M M' set fun x =>
      if start ≤ x ∧ x < finish then
        some ⟨protection, flags, origin, usage, file, none,
          if origin = .fileBacked then some (offset + (x - start)) else none,
          if origin = .fileBacked then pgsize else 0⟩
      else M set x
  | .insertBacked set _ start finish protection flags usage backing offset =>
    (∀ x, pgsize ∣ x → start ≤ x → x < finish → M set x = none) ∧
    MapBecomes M M' set fun x =>
      if start ≤ x ∧ x < finish then
        some ⟨protection, flags, .anonymous, usage, none, backing, some (offset + (x - start)), 0⟩
      else M set x
  | .insertElfFile set _ _ e =>
    MapBecomes M M' set fun x =>
      match M set e.start with
      | none => if e.start ≤ x ∧ x < e.finish then some (e.area.page x) else M set x
      | some w =>
        if x = e.start then some (w.share e)
        else if e.start ≤ x ∧ x < e.finish then some (e.area.page x)
        else M set x
  | .unmap set _ start finish =>
    MapBecomes M M' set fun x => if start ≤ x ∧ x < finish then none else M set x
  | .protect set _ _ start finish protection =>
    MapBecomes M M' set fun x =>
      if start ≤ x ∧ x < finish then (M set x).map fun w => { w with protection := protection }
      else M set x
  | .clone destination source _ => MapBecomes M M' destination (M source)
  | .move destination source =>
    destination ≠ source →
      ∀ other x, pgsize ∣ x → M' other x =
        if other = destination then M source x else if other = source then none else M other x
  | .destroy set => MapBecomes M M' set fun _ => none

variable {m : Nat → Option PageAttr} {s : VmaState} {set : Handle}

omit [Fintype Handle] in
/-- An operation of one set that leaves it with areas whose map is `m`. -/
theorem mapBecomes_store (hs : Areas b s.areas e)
    (hm : ∀ x, pgsize ∣ x → ∀ v, Maps s.areas x v ↔ m x = some v) :
    MapBecomes w.pages (w.store set s).pages set m := by
  intro other x hx
  unfold pages
  by_cases ho : other = set
  · rw [if_pos ho, ho, store_sets_self]
    exact pageMap_eq_of hs (hm x hx)
  · rw [if_neg ho, store_sets_of_ne w ho]

omit [Fintype Handle] [DecidableEq Handle] in
/-- Pages of the old map and pages of one more area, none in both. -/
theorem maps_or_iff {P : Prop} {v' : PageAttr} [Decidable P] (h : Areas b (w.sets set) e)
    (hs : Areas b s.areas e) (hmap : ∀ v, Maps s.areas x v ↔ Maps (w.sets set) x v ∨ (P ∧ v' = v))
    (v : PageAttr) : Maps s.areas x v ↔ (if P then some v' else w.pages set x) = some v := by
  rw [hmap v]
  by_cases hp : P
  · rw [if_pos hp, some.injEq]
    constructor
    · rintro (hv | hv)
      · exact (Maps.unique hs ((hmap v).mpr (.inl hv)) ((hmap v').mpr (.inr ⟨hp, rfl⟩))).symm
      · exact hv.2
    · intro hv
      exact .inr ⟨hp, hv⟩
  · rw [if_neg hp]
    show _ ↔ pageMap (w.sets set) x = some v
    rw [pageMap_eq_some h]
    exact ⟨fun hor => hor.resolve_right fun hnew => hp hnew.1, .inl⟩

theorem vmaInsertFileLength_means (h : WorldInv base w) {outcome : Allocation} {new : VmArea}
    (hok : (vmaInsertFileLength outcome (w.state set) new).2 = 0) :
    pgsize ∣ new.finish ∧
    (∀ x, pgsize ∣ x → new.start ≤ x → x < new.finish → w.pages set x = none) ∧
    MapBecomes w.pages (w.store set (vmaInsertFileLength outcome (w.state set) new).1).pages set
      fun x => if new.start ≤ x ∧ x < new.finish then some (new.page x) else w.pages set x := by
  rcases vmaInsertFileLength_spec outcome (h.state set) new with hf | ⟨s', hs', hinv, _, _, hfin, hfree, hmap⟩
  · rw [hf] at hok
    exact absurd hok (by simp)
  · rw [hs']
    refine ⟨hfin, fun x hx h1 h2 => (pageMap_eq_none (h.areas set)).mpr (hfree x ⟨h1, h2⟩), ?_⟩
    exact mapBecomes_store hinv.areas fun x hx => maps_or_iff (h.areas set) hinv.areas (hmap x hx)

omit [Fintype Handle] in
theorem MapBecomes.congr {M M' : Handle → Nat → Option PageAttr} {m' : Nat → Option PageAttr}
    (h : MapBecomes M M' set m) (hm : ∀ x, pgsize ∣ x → m x = m' x) : MapBecomes M M' set m' := by
  intro other x hx
  rw [h other x hx, hm x hx]

/-- The attributes of the pages a plain insert adds. -/
theorem insert_page {start finish protection flags offset : Nat} {origin : VmaOrigin} {usage : VmaUsage}
    {file : Option VfsFile} (hx : pgsize ∣ x) (hf : pgsize ∣ finish) (h1 : start ≤ x) (h2 : x < finish) :
    VmArea.page ⟨start, finish, offset, if origin = .fileBacked then finish - start else 0, protection, flags,
      origin, usage, file, none⟩ x =
    ⟨protection, flags, origin, usage, file, none,
      if origin = .fileBacked then some (offset + (x - start)) else none,
      if origin = .fileBacked then pgsize else 0⟩ := by
  have hstep := page_step hx hf h2
  unfold VmArea.page VmArea.HasOffset
  cases origin with
  | anonymous => simp
  | fileBacked =>
    simp only [true_or, if_true, PageAttr.mk.injEq, true_and]
    omega

/-- The rest of an ELF segment maps its pages as the whole segment would. -/
theorem ElfArgs.rest_page {a : ElfArgs} (h : a.start + pgsize ≤ x) : a.rest.area.page x = a.area.page x := by
  unfold ElfArgs.area ElfArgs.rest VmArea.page VmArea.HasOffset
  simp only [true_or, if_true, PageAttr.mk.injEq, some.injEq, true_and]
  constructor
  · omega
  · split <;> omega

omit [DecidableEq Handle] in
/-- The page of the area found at an address is the map's value there. -/
theorem vmaFind_pages (h : WorldInv base w) (set : Handle) (address : Nat) :
    (vmaFind address (w.sets set)).map (fun a => a.page (pgrounddown address)) =
      w.pages set (pgrounddown address) := by
  refine (pageMap_eq_of (h.areas set) fun v => ?_).symm
  rw [map_eq_some_iff]
  constructor
  · rintro ⟨a, ha, hax, hv⟩
    exact ⟨a, (vmaFind_eq_some (h.areas set)).mpr ⟨ha, (h.wf set a ha).has_pgrounddown.mp hax⟩, hv⟩
  · rintro ⟨a, hfind, hv⟩
    obtain ⟨ha, hax⟩ := (vmaFind_eq_some (h.areas set)).mp hfind
    exact ⟨a, ha, (h.wf set a ha).has_pgrounddown.mpr hax, hv⟩

theorem pgrounddown_of_dvd (hx : pgsize ∣ x) : pgrounddown x = x := by
  unfold pgrounddown
  rw [Nat.mod_eq_zero_of_dvd hx, Nat.sub_zero]

theorem vmaInsertElfFile_means (h : WorldInv base w) (split rest : Allocation) {a : ElfArgs}
    (hok : (vmaInsertElfFile split rest (w.state set) a).2 = 0) :
    VmaOp.Means w.pages (w.store set (vmaInsertElfFile split rest (w.state set) a).1).pages
      (.insertElfFile set split rest a) := by
  rcases vmaInsertElfFile_cases split rest (h.state set) a with
    ⟨hr, _⟩ | ⟨s', hr, hinv, hchk, hmap, _⟩ | ⟨_, _, _, _, hr, _⟩
  · rw [hr] at hok
    exact absurd hok (by simp)
  · rw [hr]
    obtain ⟨_, _, hs, _⟩ := vmaElfRefused_eq_false hchk
    have hfirst := vmaFind_pages h set a.start
    rw [pgrounddown_of_dvd hs] at hfirst
    refine mapBecomes_store hinv.areas fun x hx v => ?_
    have hmap := fun v => hmap x hx v
    cases hfind : vmaFind a.start (w.sets set) with
    | none =>
      have hfind' : vmaFind a.start (w.state set).areas = none := hfind
      rw [hfind, map_none] at hfirst
      simp only [hfind'] at hmap
      simp only [← hfirst]
      exact maps_or_iff (P := a.start ≤ x ∧ x < a.finish) (h.areas set) hinv.areas hmap v
    | some o =>
      have hfind' : vmaFind a.start (w.state set).areas = some o := hfind
      rw [hfind, map_some] at hfirst
      simp only [hfind'] at hmap
      simp only [← hfirst]
      by_cases hxs : x = a.start
      · -- the shared page
        have hno : ¬ a.rest.area.Has x := fun hhas => by
          have hge : a.start + pgsize ≤ x := hhas.1
          have := pgsize_pos
          omega
        rw [if_pos hxs, hmap v, if_pos hxs, some.injEq]
        simp only [hno, false_and, or_false]
      · have hiff : a.rest.area.Has x ↔ a.start ≤ x ∧ x < a.finish := by
          constructor
          · rintro ⟨h1, h2⟩
            exact ⟨(Nat.le_add_right _ _).trans h1, h2⟩
          · rintro ⟨h1, h2⟩
            exact ⟨page_step hs hx (Nat.lt_of_le_of_ne h1 (Ne.symm hxs)), h2⟩
        rw [if_neg hxs]
        refine maps_or_iff (h.areas set) hinv.areas (fun v => ?_) v
        rw [hmap v, if_neg hxs, hiff]
        refine or_congr Iff.rfl (and_congr_right fun hin => ?_)
        rw [ElfArgs.rest_page (page_step hs hx (Nat.lt_of_le_of_ne hin.1 (Ne.symm hxs)))]
  · rw [hr] at hok
    exact absurd hok (by simp)

omit [Fintype Handle] in
/-- The pages of a world after one set was destroyed. -/
theorem destroy_means :
    MapBecomes w.pages (w.destroy set).pages set fun _ => none :=
  mapBecomes_store (Nat.le_refl 0) fun x _ v => by simp [vmaSetDestroy]

theorem vmaSetClone_means (h : WorldInv base w) {outcome : Nat → Allocation} (destination source : Handle)
    (hok : (vmaSetClone outcome w destination source).2 = 0) :
    MapBecomes w.pages (vmaSetClone outcome w destination source).1.pages destination (w.pages source) := by
  unfold vmaSetClone at hok ⊢
  by_cases he : destination = source
  · rw [if_pos he]
    intro other x _
    by_cases ho : other = destination
    · rw [if_pos ho, ho, he]
    · rw [if_neg ho]
  simp only [if_neg he] at hok ⊢
  have hd := h.destroy destination
  have hsource : (w.destroy destination).sets source = w.sets source :=
    store_sets_of_ne w (Ne.symm he)
  obtain ⟨hinv, hmap⟩ := vmaCloneLoop_spec 0 _ _
    (hd.state destination)
  have hclone : MapBecomes (w.destroy destination).pages _ destination (w.pages source) :=
    mapBecomes_store hinv.areas fun x hx v => by
      have hempty : ((w.destroy destination).state destination).areas = [] := store_sets_self ..
      rw [hmap hok x hx v, hempty, hsource]
      simp only [maps_nil, false_or]
      exact (pageMap_eq_some (h.areas source)).symm
  intro other x hx
  rw [hclone other x hx]
  by_cases ho : other = destination
  · rw [if_pos ho, if_pos ho]
  · rw [if_neg ho, if_neg ho, destroy_means other x hx, if_neg ho]

omit [Fintype Handle] in
theorem vmaSetMove_means (destination source : Handle) :
    VmaOp.Means w.pages (vmaSetMove w destination source).pages (.move destination source) := by
  intro he other x hx
  unfold vmaSetMove
  simp only [if_neg he]
  unfold pages
  have hsource : (w.destroy destination).sets source = w.sets source := store_sets_of_ne w (Ne.symm he)
  by_cases h1 : other = destination
  · subst h1
    simp only [if_true, update_of_ne he, update_self, hsource]
  by_cases h2 : other = source
  · subst h2
    simp only [if_neg h1, if_true, update_self]
    rfl
  · simp only [if_neg h1, if_neg h2, update_of_ne h2, update_of_ne h1]
    rw [destroy, store_sets_of_ne w h1]

/-! ## Every call, every run -/

/-- **A successful call does to the maps exactly what it means.** -/
theorem means_step (h : WorldInv base w) (op : VmaOp Handle) (hok : (w.step op).2 = 0) :
    op.Means w.pages (w.step op).1.pages := by
  cases op with
  | insert set outcome start finish =>
    obtain ⟨hfin, hfree, hmap⟩ := vmaInsertFileLength_means h hok
    refine ⟨hfree, hmap.congr fun x hx => ?_⟩
    by_cases hin : start ≤ x ∧ x < finish
    · rw [if_pos hin, if_pos hin, insert_page hx hfin hin.1 hin.2]
    · rw [if_neg hin, if_neg hin]
  | insertBacked set outcome start finish protection flags usage backing offset =>
    rcases vmaInsertBacked_cases outcome (w.state set) start finish protection flags usage backing offset with
      hf | ⟨k, rfl, hins⟩
    · exact absurd hok (by simp [step, onSet, hf])
    simp only [step, onSet, hins] at hok ⊢
    obtain ⟨_, hfree, hmap⟩ := vmaInsertFileLength_means h hok
    refine ⟨hfree, hmap.congr fun x _ => ?_⟩
    simp only [VmArea.page, VmArea.HasOffset, isSome_some, or_true, if_true, Nat.zero_sub,
      Nat.min_zero]
  | insertElfFile set split rest => exact vmaInsertElfFile_means h split rest hok
  | unmap set outcome start finish =>
    rcases vmaUnmap_spec outcome (h.state set) start finish with hf | ⟨s', hs', hinv, hmap⟩
    · exact absurd hok (by simp [step, onSet, hf])
    simp only [step, onSet, hs']
    refine mapBecomes_store hinv.areas fun x hx v => ?_
    rw [hmap x hx v]
    by_cases hin : start ≤ x ∧ x < finish
    · simp [hin]
    · rw [if_neg hin]
      exact (and_iff_left hin).trans (pageMap_eq_some (h.areas set)).symm
  | protect set startOutcome endOutcome start finish protection =>
    rcases vmaProtect_spec startOutcome endOutcome (h.state set) start finish protection with
      hf | ⟨s', hs', hinv, _, hmap⟩
    · exact absurd hok (by simp [step, onSet, hf])
    simp only [step, onSet, hs']
    refine mapBecomes_store hinv.areas fun x hx v => ?_
    rw [hmap x hx v]
    by_cases hin : start ≤ x ∧ x < finish
    · simp only [if_pos hin, map_eq_some_iff]
      refine exists_congr fun w' => and_congr (pageMap_eq_some (h.areas set)).symm eq_comm
    · simp only [if_neg hin, exists_eq_right']
      exact (pageMap_eq_some (h.areas set)).symm
  | clone destination source => exact vmaSetClone_means h destination source hok
  | move destination source => exact vmaSetMove_means destination source
  | destroy => exact destroy_means

/-- The lookups of a set answer from its map. -/
structure LookupsAnswer (w : VmaWorld Handle) (set : Handle) : Prop where
  find : ∀ address, (vmaFind address (w.sets set)).map (fun a => a.page (pgrounddown address)) =
    w.pages set (pgrounddown address)
  rangeFree : ∀ start finish, vmaRangeFree (w.sets set) start finish = true ↔
    start < finish ∧ ∀ x, start ≤ x → x < finish → w.pages set (pgrounddown x) = none
  rangeMapped : ∀ start finish, vmaRangeMapped (w.sets set) start finish = true ↔
    start < finish ∧ ∀ x, start ≤ x → x < finish → w.pages set (pgrounddown x) ≠ none

omit [DecidableEq Handle] in
theorem WorldInv.lookups (h : WorldInv base w) (set : Handle) : LookupsAnswer w set := by
  have hnone : ∀ x, w.pages set (pgrounddown x) = none ↔ ¬ ∃ a ∈ w.sets set, a.Has x := fun x =>
    (pageMap_eq_none (h.areas set)).trans (not_congr (covered_iff (h.wf set)))
  refine ⟨fun address => vmaFind_pages h set address, fun start finish => ?_, fun start finish => ?_⟩
  · simp only [vmaRangeFree_iff (h.areas set), hnone]
  · simp only [vmaRangeMapped_iff (h.areas set), ne_eq, hnone, not_not]

/-- A silent step keeps the map of a set. -/
theorem Silent.pages_eq (hsil : Silent ⟨w.refs, areas⟩ s) (h : WorldInv base w) (he : w.sets set = areas)
    (hx : pgsize ∣ x) : pageMap s.areas x = w.pages set x := by
  subst he
  obtain ⟨hinv, hmap⟩ := hsil _ (h.state set)
  exact hmap.pageMap_eq (h.areas set) hinv.areas hx

/-- **VMA sets refine page maps.** In every world reached from `vma_set_init` by any sequence of calls, every
    successful call does to the maps exactly what it means; cutting an area in two and merging two areas keep
    the map; and `vma_find`, `vma_range_free` and `vma_range_mapped` answer from it. -/
theorem vma_refines_pageMap (refs : Refs) (ops : List (VmaOp Handle)) :
    (∀ op, ((vmaRun refs ops).step op).2 = 0 →
      op.Means (vmaRun refs ops).pages ((vmaRun refs ops).step op).1.pages) ∧
    (∀ set l a r m, (vmaRun refs ops).sets set = l ++ [a] ++ r → pgsize ∣ m → a.start < m → m < a.finish →
      ∀ x, pgsize ∣ x →
        pageMap (l ++ [a.trim m, a.tail m] ++ r) x = (vmaRun refs ops).pages set x) ∧
    (∀ set l a c r, (vmaRun refs ops).sets set = l ++ [a, c] ++ r → vmaCanMerge a c = true →
      ∀ x, pgsize ∣ x → pageMap (l ++ [vmaMergePair a c] ++ r) x = (vmaRun refs ops).pages set x) ∧
    (∀ set, LookupsAnswer (vmaRun refs ops) set) := by
  have h := worldInv_run refs ops
  refine ⟨fun op hok => means_step h op hok, ?_, ?_, h.lookups⟩
  · intro set l a r m he hm hlo hhi x hx
    exact (silent_split _ l r hm hlo hhi).pages_eq h he hx
  · intro set l a c r he hcan x hx
    exact (silent_merge _ l r hcan).pages_eq h he hx

end Caffeinix.Vma
