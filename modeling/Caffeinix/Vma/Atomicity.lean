import Caffeinix.Vma.Refinement

/-!
# `Vma.Atomicity` — what a failed call leaves behind

`vma_insert`, `vma_insert_backed`, `vma_unmap` and `vma_protect` leave the whole state as it was when they
return `-1`. `vma_insert_elf_file` does not always: when its first page is shared with an area already there
and the rest of the segment cannot be inserted, the shared page keeps what the first half did to it.
`ElfTears` is the exact condition under which something of that shows.
-/

namespace Caffeinix.Vma

open Nat Intervals PageAttr

variable {base refs : Refs} {s : VmaState} {a o new : VmArea} {areas : List VmArea} {e : ElfArgs}
  {start finish x : Nat} {w : PageAttr}

/-- A set as calls leave it: well formed, with counters that cover what its areas hold. -/
structure VmaSet where
  state : VmaState
  base : Refs
  inv : Inv base state

/-- Every set of every reachable world is one. -/
theorem exists_vmaSet {Handle : Type} [Fintype Handle] [DecidableEq Handle] (refs : Refs)
    (ops : List (VmaOp Handle)) (set : Handle) : ∃ s : VmaSet, s.state = (vmaRun refs ops).state set :=
  ⟨⟨_, _, (worldInv_run refs ops).state set⟩, rfl⟩

/-- Every page keeps its attributes and no counter has changed. -/
def Unchanged (s s' : VmaState) : Prop := SameMap s.areas s'.areas ∧ s'.refs = s.refs

/-- Something of the first half shows: the page gains a protection bit, loses its file or gains file bytes,
    or the cut has taken references. -/
def ElfVisible (o : VmArea) (e : ElfArgs) : Prop :=
  o.protection ||| e.protection ≠ o.protection ∨
  (o.origin = .fileBacked ∧ (o.file ≠ e.file ∨ o.offset + (e.start - o.start) ≠ e.offset)) ∨
  (o.origin = .fileBacked ∧ o.fileLength - (e.start - o.start) < min e.fileLength pgsize) ∨
  (o.start < e.start ∧ (o.file.isSome ∨ o.backing.isSome))

/-- The call fails between its two halves, and it shows: `o` accepts the segment's first page, the cut
    succeeds, and the remaining pages are not free or cannot be allocated. -/
structure ElfTears (split rest : Allocation) (s : VmaState) (e : ElfArgs) (o : VmArea) : Prop where
  accepted : vmaElfRefused e = false
  overlap : vmaFind e.start s.areas = some o
  shareable : vmaElfOverlapRefused o e = false
  splits : o.start < e.start → split.memory = true ∧ (o.file.isSome → split.exec = true)
  more : e.start + pgsize < e.finish
  fails : vmaRangeFree s.areas (e.start + pgsize) e.finish = false ∨ rest.memory = false ∨ rest.exec = false
  visible : ElfVisible o e

/-! ## When an insert fails -/

theorem vmaInsertPlace_eq_none :
    vmaInsertPlace start finish areas = none ↔ vmaRangeFreeLoop start finish areas = false := by
  induction areas with
  | nil => simp [vmaInsertPlace, vmaRangeFreeLoop]
  | cons c areas ih =>
    unfold vmaInsertPlace vmaRangeFreeLoop
    split
    · simp
    · split
      · simp
      · rw [Option.map_eq_none_iff, ih]

variable {outcome split : Allocation} {s' : VmaState}

theorem vmaAllocate_eq_none : vmaAllocate outcome refs a = none ↔
    outcome.memory = false ∨ (a.file.isSome ∧ a.usage = .elf ∧ outcome.exec = false) := by
  unfold vmaAllocate
  cases outcome.memory <;> cases outcome.exec <;> simp

/-- An insert with acceptable arguments fails when its range is not free or its allocation fails. -/
theorem vmaInsertFileLength_eq_neg (hacc : vmaInsertRefused new = false) :
    (vmaInsertFileLength outcome s new).2 = -1 ↔
      vmaRangeFree s.areas new.start new.finish = false ∨ vmaAllocate outcome s.refs new = none := by
  obtain ⟨_, hlt, _⟩ := vmaInsertRefused_eq_false.mp hacc
  unfold vmaInsertFileLength vmaRangeFree
  rw [if_neg (not_le.mpr hlt), ← vmaInsertPlace_eq_none, if_neg (by rw [hacc]; simp)]
  cases hplace : vmaInsertPlace new.start new.finish s.areas with
  | none => simp
  | some => cases halloc : vmaAllocate outcome s.refs new <;> simp

/-- The rest of an accepted segment is acceptable to the insert. -/
theorem ElfArgs.rest_accepted (h : vmaElfRefused e = false) (hmore : e.start + pgsize < e.finish) :
    vmaInsertRefused e.rest.area = false := by
  obtain ⟨hf, hlt, hs, hfin, hmax, hoff, hwrap, hlen⟩ := vmaElfRefused_eq_false h
  refine vmaInsertRefused_eq_false.mpr ⟨⟨?_, hfin, ?_, ?_, ?_, ?_, ?_, ?_⟩, hmore, hmax⟩
  · exact Nat.dvd_add hs (Nat.dvd_refl _)
  · exact Nat.dvd_add hoff (Nat.dvd_refl _)
  · exact iff_of_true hf rfl
  · exact fun hb => absurd hb (by simp [ElfArgs.area])
  · show (if e.fileLength > pgsize then e.fileLength - pgsize else 0) ≤ e.finish - (e.start + pgsize)
    split <;> omega
  · exact fun ho => absurd ho (by simp [ElfArgs.area])
  · intro _
    show e.offset + pgsize + (e.finish - (e.start + pgsize)) ≤ uint64Max
    omega

/-! ## The first half -/

/-- The overlap half goes through when the cut's allocation does. -/
theorem exists_vmaElfOverlap
    (hsp : o.start < e.start → split.memory = true ∧ (o.file.isSome → split.exec = true)) :
    ∃ s', vmaElfOverlap split s o e = some s' := by
  unfold vmaElfOverlap
  by_cases hcut : o.start < e.start
  · obtain ⟨hmem, hexec⟩ := hsp hcut
    rw [if_pos hcut]
    unfold vmaAllocateSplit
    cases halloc : vmaAllocate split s.refs (o.tail e.start) with
    | some => exact ⟨_, rfl⟩
    | none =>
      rcases vmaAllocate_eq_none.mp halloc with hno | ⟨hfile, _, hno⟩
      · exact absurd (hmem.symm.trans hno) (by simp)
      · exact absurd ((hexec hfile).symm.trans hno) (by simp)
  · rw [if_neg hcut]
    exact ⟨_, rfl⟩

/-- The cut's allocation went through if the overlap half did. -/
theorem ElfOverlapped.splits (h : ElfOverlapped split s e o s') (hcut : o.start < e.start) :
    split.memory = true ∧ (o.file.isSome → split.exec = true) := by
  have hov := h.done
  unfold vmaElfOverlap vmaAllocateSplit at hov
  rw [if_pos hcut] at hov
  obtain ⟨_, _, husage⟩ := vmaElfOverlapRefused_eq_false h.shareable
  have hne : vmaAllocate split s.refs (o.tail e.start) ≠ none := fun hno => by
    rw [hno] at hov
    exact absurd hov (by simp)
  rw [ne_eq, vmaAllocate_eq_none, not_or] at hne
  refine ⟨by simpa using hne.1, fun hf => ?_⟩
  by_contra hx
  exact hne.2 ⟨hf, husage, by simpa using hx⟩

section
variable (h : Inv base s) (hov : ElfOverlapped split s e o s')
include h hov

/-- The overlap half keeps which addresses are mapped. -/
theorem ElfOverlapped.covered : (∃ a ∈ s'.areas, a.Has x) ↔ ∃ a ∈ s.areas, a.Has x := by
  obtain ⟨_, _, hs, _⟩ := vmaElfRefused_eq_false hov.accepted
  obtain ⟨_, hfin, husage⟩ := vmaElfOverlapRefused_eq_false hov.shareable
  obtain ⟨hinv, hmap, _⟩ := vmaElfOverlap_spec h hs hov.found hfin husage hov.done
  rw [← covered_iff hinv.wf, ← covered_iff h.wf]
  have hmaps : ∀ (l : List VmArea) (y : Nat), (∃ a ∈ l, a.Has y) ↔ ∃ v, Maps l y v := fun l y =>
    ⟨fun ⟨a, ha, hy⟩ => ⟨a.page y, a, ha, hy, rfl⟩, fun ⟨_, a, ha, hy, _⟩ => ⟨a, ha, hy⟩⟩
  rw [hmaps, hmaps]
  simp only [hmap _ pgrounddown_dvd]
  by_cases hx : pgrounddown x = e.start
  · obtain ⟨ho, hox⟩ := (vmaFind_eq_some h.areas).mp hov.found
    simp only [if_pos hx, exists_eq']
    exact iff_of_true trivial ⟨o.page e.start, o, ho, hx ▸ hox, hx ▸ rfl⟩
  · simp only [if_neg hx]

theorem ElfOverlapped.rangeFree (hinv : Inv base s')
    (start finish : Nat) : vmaRangeFree s'.areas start finish = vmaRangeFree s.areas start finish := by
  rw [Bool.eq_iff_iff, vmaRangeFree_iff hinv.areas, vmaRangeFree_iff h.areas]
  simp only [hov.covered h]

end

/-- Sharing leaves the attributes as they were exactly when it adds nothing to them. -/
theorem share_eq_self (hb : w.bytes ≤ pgsize) : w.share e = w ↔
    w.protection ||| e.protection = w.protection ∧
    (w.origin = .fileBacked →
      w.file = e.file ∧ w.offset = some e.offset ∧ min e.fileLength pgsize ≤ w.bytes) := by
  obtain ⟨protection, flags, origin, usage, file, backing, offset, bytes⟩ := w
  unfold share
  simp only at hb
  cases origin with
  | anonymous => simp
  | fileBacked =>
    by_cases hdrop : file ≠ e.file ∨ offset ≠ some e.offset
    · simp only [hdrop, and_self, if_true, mk.injEq, reduceCtorEq, false_and, and_false,
        false_iff, true_implies, not_and]
      intro _ hf ho
      exact absurd hdrop (by simp [hf, ho])
    have hsame : file = e.file ∧ offset = some e.offset := by
      simpa only [not_or, ne_eq, not_not] using hdrop
    obtain ⟨rfl, rfl⟩ := hsame
    simp only [ne_eq, not_true_eq_false, or_self, and_false, if_false, true_and, true_implies]
    by_cases hraise : bytes < e.fileLength
    · simp only [if_pos hraise, mk.injEq, true_and]
      refine and_congr_right fun _ => ?_
      omega
    · simp only [if_neg hraise, mk.injEq, and_true]
      refine (and_iff_left ?_).symm
      omega

/-- A page that keeps its file keeps its references. -/
theorem vmaElfShare_refs (h : ¬ (a.origin = .fileBacked ∧ (a.file ≠ e.file ∨ a.offset ≠ e.offset))) :
    (vmaElfShare a e).1.refs = a.refs := by
  unfold vmaElfShare
  simp only [if_neg h]
  split <;> rfl

theorem refs_eq_nil : a.refs = [] ↔ a.file = none ∧ a.backing = none := by
  unfold VmArea.refs areaRefs
  cases a.file <;> cases a.backing <;> by_cases hu : a.usage = .elf <;> simp [hu]

/-- The counters stay exactly when no cut has taken references, for a page that keeps its file. -/
theorem heldRefs_eq_iff {held held' : List RefKey} {cut : Prop} [Decidable cut]
    (h : ∀ k, held'.count k + (if cut then 0 else o.refs.count k) = held.count k + o.refs.count k) :
    (∀ k, held'.count k = held.count k) ↔ ¬ (cut ∧ (o.file.isSome ∨ o.backing.isSome)) := by
  have hnil : ¬ (o.file.isSome ∨ o.backing.isSome) ↔ o.refs = [] := by
    rw [refs_eq_nil, not_or, Option.not_isSome_iff_eq_none, Option.not_isSome_iff_eq_none]
  by_cases hcut : cut
  · simp only [if_pos hcut] at h
    rw [not_and, hnil]
    constructor
    · intro heq _
      refine List.eq_nil_iff_forall_not_mem.mpr fun k hk => ?_
      have := h k
      have := heq k
      have := List.count_pos_iff.mpr hk
      omega
    · intro hno k
      have := h k
      rw [hno hcut, List.count_nil] at this
      omega
  · simp only [if_neg hcut] at h
    refine iff_of_true (fun k => ?_) fun hc => hcut hc.1
    have := h k
    omega

/-- **What the first half leaves is unchanged exactly when nothing of it shows.** -/
theorem ElfOverlapped.unchanged_iff (h : Inv base s) (hov : ElfOverlapped split s e o s') :
    Unchanged s s' ↔ ¬ ElfVisible o e := by
  obtain ⟨_, _, hs, _⟩ := vmaElfRefused_eq_false hov.accepted
  obtain ⟨_, hfin, husage⟩ := vmaElfOverlapRefused_eq_false hov.shareable
  obtain ⟨hinv, hmap, hheld⟩ := vmaElfOverlap_spec h hs hov.found hfin husage hov.done
  obtain ⟨hom, hox⟩ := (vmaFind_eq_some h.areas).mp hov.found
  have hoMaps : Maps s.areas e.start (o.page e.start) := ⟨o, hom, hox, rfl⟩
  have hlen := (h.wf o hom).length
  have hbytes : (o.page e.start).bytes = o.fileLength - (e.start - o.start) := by
    show min pgsize _ = _
    omega
  -- the pages are as before exactly when the shared page is
  have hpages : SameMap s.areas s'.areas ↔ (o.page e.start).share e = o.page e.start := by
    constructor
    · intro hsame
      have hm := (hsame e.start hs ((o.page e.start).share e)).mp ((hmap e.start hs _).mpr (by simp))
      exact Maps.unique h.areas hm hoMaps
    · intro hsame x hx v
      rw [hmap x hx v]
      by_cases hxe : x = e.start
      · subst hxe
        rw [if_pos rfl, hsame]
        exact ⟨fun hv => hv ▸ hoMaps, fun hv => Maps.unique h.areas hoMaps hv⟩
      · rw [if_neg hxe]
  have hrefs : s'.refs = s.refs ↔ ∀ k, (heldRefs s'.areas).count k = (heldRefs s.areas).count k := by
    rw [funext_iff]
    refine forall_congr' fun k => ?_
    rw [hinv.refs k, h.refs k]
    omega
  have hself := share_eq_self (e := e) (w := o.page e.start) (min_le_left _ _)
  rw [hbytes] at hself
  have hoffset : o.origin = .fileBacked →
      (o.page e.start).offset = some (o.offset + (e.start - o.start)) := fun ho => if_pos (.inl ho)
  unfold Unchanged
  rw [hpages, hrefs]
  constructor
  · rintro ⟨hshare, hcounts⟩
    obtain ⟨hprot, hfile⟩ := hself.mp hshare
    have hkeep : ¬ (o.origin = .fileBacked ∧
        (o.file ≠ e.file ∨ (o.tail e.start).offset ≠ e.offset)) := by
      rintro ⟨ho, hdiff⟩
      obtain ⟨h1, h2, _⟩ := hfile ho
      rw [hoffset ho, Option.some.injEq] at h2
      rw [tail_offset (.inl ho)] at hdiff
      exact hdiff.elim (fun hd => hd h1) fun hd => hd h2
    rw [vmaElfShare_refs hkeep] at hheld
    rintro (hv | ⟨ho, hv⟩ | ⟨ho, hv⟩ | hv)
    · exact hv hprot
    · obtain ⟨h1, h2, _⟩ := hfile ho
      rw [hoffset ho, Option.some.injEq] at h2
      exact hv.elim (fun hd => hd h1) fun hd => hd h2
    · obtain ⟨_, _, h3⟩ := hfile ho
      omega
    · exact (heldRefs_eq_iff hheld).mp hcounts hv
  · intro hno
    unfold ElfVisible at hno
    simp only [not_or, not_and, ne_eq, not_not, not_lt] at hno
    obtain ⟨hprot, hfile, hlen', hcut⟩ := hno
    have hshare : (o.page e.start).share e = o.page e.start := by
      refine hself.mpr ⟨hprot, fun ho => ?_⟩
      obtain ⟨h1, h2⟩ := hfile ho
      exact ⟨h1, by rw [hoffset ho, h2], hlen' ho⟩
    have hkeep : ¬ (o.origin = .fileBacked ∧
        (o.file ≠ e.file ∨ (o.tail e.start).offset ≠ e.offset)) := by
      rintro ⟨ho, hdiff⟩
      obtain ⟨h1, h2⟩ := hfile ho
      rw [tail_offset (.inl ho)] at hdiff
      exact hdiff.elim (fun hd => hd h1) fun hd => hd h2
    rw [vmaElfShare_refs hkeep] at hheld
    refine ⟨hshare, (heldRefs_eq_iff hheld).mpr ?_⟩
    rintro ⟨h1, h2⟩
    obtain ⟨h3, h4⟩ := hcut h1
    exact h2.elim (fun hf => h3 hf) fun hb => h4 hb

/-- When the overlap half is done and more is left, the second half fails exactly when the remaining pages are
    not free or their allocation fails. -/
theorem ElfOverlapped.rest_fails_iff {rest : Allocation} (h : Inv base s)
    (hov : ElfOverlapped split s e o s') (hinv : Inv base s') (hmore : e.start + pgsize < e.finish) :
    (vmaInsertFileLength rest s' e.rest.area).2 = -1 ↔
      vmaRangeFree s.areas (e.start + pgsize) e.finish = false ∨ rest.memory = false ∨ rest.exec = false := by
  obtain ⟨hfile, _⟩ := vmaElfRefused_eq_false hov.accepted
  rw [vmaInsertFileLength_eq_neg (ElfArgs.rest_accepted hov.accepted hmore), vmaAllocate_eq_none,
    hov.rangeFree h hinv]
  have hf : e.rest.area.file.isSome = true := hfile
  have hu : e.rest.area.usage = .elf := rfl
  simp only [hf, hu, true_and]
  exact Iff.rfl

/-- **A failed `vma_insert_elf_file` leaves everything unchanged exactly when it is not torn.** -/
theorem vmaInsertElfFile_atomic_iff (h : Inv base s) (split rest : Allocation) (e : ElfArgs) :
    ((vmaInsertElfFile split rest s e).2 = -1 → Unchanged s (vmaInsertElfFile split rest s e).1) ↔
      ¬ ∃ o, ElfTears split rest s e o := by
  -- a torn call has done its first half
  have hfirst : ∀ o, ElfTears split rest s e o → ∃ s', ElfOverlapped split s e o s' := fun o ht => by
    obtain ⟨s', hs'⟩ := exists_vmaElfOverlap ht.splits
    exact ⟨s', ht.accepted, ht.overlap, ht.shareable, hs'⟩
  rcases vmaInsertElfFile_cases split rest h e with
    ⟨hr, hno⟩ | ⟨s', hr, hinv, _, _, hrest⟩ | ⟨o, s', hov, hinv, hr, hmore, hrest⟩
  · rw [hr]
    refine iff_of_true (fun _ => ⟨.refl _, rfl⟩) ?_
    rintro ⟨o, ht⟩
    obtain ⟨s', hov⟩ := hfirst o ht
    exact hno o s' hov
  · rw [hr]
    refine iff_of_true (fun hneg => absurd hneg (by simp)) ?_
    rintro ⟨o, ht⟩
    obtain ⟨s₁, hov⟩ := hfirst o ht
    obtain ⟨_, _, hs, _⟩ := vmaElfRefused_eq_false ht.accepted
    obtain ⟨_, hfin, husage⟩ := vmaElfOverlapRefused_eq_false ht.shareable
    obtain ⟨hinv₁, _⟩ := vmaElfOverlap_spec h hs hov.found hfin husage hov.done
    have hok := hrest o s₁ hov ht.more
    rw [(hov.rest_fails_iff h hinv₁ ht.more).mpr ht.fails] at hok
    exact absurd hok (by decide)
  · rw [hr]
    have hfails := (hov.rest_fails_iff h hinv hmore).mp (by rw [hrest])
    constructor
    · rintro hun ⟨o', ht⟩
      obtain ⟨s₁, hov'⟩ := hfirst o' ht
      obtain ⟨rfl, rfl⟩ := hov.unique hov'
      exact (hov.unchanged_iff h).mp (hun rfl) ht.visible
    · intro hno _
      refine (hov.unchanged_iff h).mpr fun hvis => hno ⟨o, ?_⟩
      exact ⟨hov.accepted, hov.found, hov.shareable, hov.splits, hmore, hfails, hvis⟩

/-- **Failed calls.** A failed `vma_insert`, `vma_insert_backed`, `vma_unmap` or `vma_protect` leaves the state
    as it was; a failed `vma_insert_elf_file` leaves every page and counter unchanged exactly when it is not
    torn between its two halves. -/
theorem vma_failure_atomic (s : VmaSet) :
    (∀ outcome start finish protection flags origin usage file offset,
      (vmaInsert outcome s.state start finish protection flags origin usage file offset).2 = -1 →
      (vmaInsert outcome s.state start finish protection flags origin usage file offset).1 = s.state) ∧
    (∀ outcome start finish protection flags usage backing offset,
      (vmaInsertBacked outcome s.state start finish protection flags usage backing offset).2 = -1 →
      (vmaInsertBacked outcome s.state start finish protection flags usage backing offset).1 = s.state) ∧
    (∀ outcome start finish, (vmaUnmap outcome s.state start finish).2 = -1 →
      (vmaUnmap outcome s.state start finish).1 = s.state) ∧
    (∀ startOutcome endOutcome start finish protection,
      (vmaProtect startOutcome endOutcome s.state start finish protection).2 = -1 →
      (vmaProtect startOutcome endOutcome s.state start finish protection).1 = s.state) ∧
    (∀ split rest e,
      ((vmaInsertElfFile split rest s.state e).2 = -1 →
        Unchanged s.state (vmaInsertElfFile split rest s.state e).1) ↔
      ¬ ∃ o, ElfTears split rest s.state e o) := by
  have hinsert : ∀ outcome new, (vmaInsertFileLength outcome s.state new).2 = -1 →
      (vmaInsertFileLength outcome s.state new).1 = s.state := by
    intro outcome new hneg
    rcases vmaInsertFileLength_spec outcome s.inv new with hf | ⟨s', hok, _⟩
    · rw [hf]
    · rw [hok] at hneg
      exact absurd hneg (by simp)
  refine ⟨fun outcome _ _ _ _ _ _ _ _ => hinsert outcome _, ?_, ?_, ?_, ?_⟩
  · intro outcome start finish protection flags usage backing offset
    rcases vmaInsertBacked_cases outcome s.state start finish protection flags usage backing offset with
      hf | ⟨k, _, hins⟩
    · rw [hf]
      exact fun _ => rfl
    · rw [hins]
      exact hinsert outcome _
  · intro outcome start finish hneg
    rcases vmaUnmap_spec outcome s.inv start finish with hf | ⟨s', hok, _⟩
    · rw [hf]
    · rw [hok] at hneg
      exact absurd hneg (by simp)
  · intro startOutcome endOutcome start finish protection hneg
    rcases vmaProtect_spec startOutcome endOutcome s.inv start finish protection with hf | ⟨s', hok, _⟩
    · rw [hf]
    · rw [hok] at hneg
      exact absurd hneg (by simp)
  · intro split rest e
    exact vmaInsertElfFile_atomic_iff s.inv split rest e

/-! ## A torn insert -/

/-- A read-only ELF page at `0x1000` and an anonymous page at `0x3000`. -/
def tornSetup : List (VmaOp Unit) :=
  [.insertElfFile () ⟨true, true⟩ ⟨true, true⟩ ⟨0x1000, 0x2000, 1, some ⟨0, 0⟩, 0, 0x1000⟩,
   .insert () ⟨true, true⟩ 0x3000 0x4000 1 linuxMapPrivate .anonymous .mmap none 0]

/-- A writable segment over `[0x1000, 0x4000)` of the same file. -/
def tornCall : VmaOp Unit :=
  .insertElfFile () ⟨true, true⟩ ⟨true, true⟩ ⟨0x1000, 0x4000, 3, some ⟨0, 0⟩, 0, 0x3000⟩

/-- The segment meets the anonymous page and the call fails, but the ELF page has become writable. -/
theorem vma_elf_insert_torn :
    (((vmaRun (fun _ => 1) tornSetup).step tornCall).2 = -1) ∧
    ((vmaRun (fun _ => 1) tornSetup).pages () 0x1000).map protection = some 1 ∧
    (((vmaRun (fun _ => 1) tornSetup).step tornCall).1.pages () 0x1000).map protection = some 3 := by
  decide

end Caffeinix.Vma
