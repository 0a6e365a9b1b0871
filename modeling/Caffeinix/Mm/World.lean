import Caffeinix.Mm.Invariant

/-!
# `Mm.World` — which kind of page each address has

The kinds of `Mm.Invariant` are read off the VMA sets. Here is what the calls of `vma.c` do to them: the ones
that add areas leave the kinds of mapped pages alone (`Extends`), `vma_unmap` and `vma_set_destroy` take kinds
away, and `vma_protect` changes none.
-/

namespace Caffeinix.Mm

open Vma VmaWorld

variable {Proc : Type} [Fintype Proc] [DecidableEq Proc] {w w' : VmaWorld Proc} {proc : Proc}
  {area : VmArea} {x : Nat}

/-- What is mapped at a page with these attributes. -/
def pageKind (v : PageAttr) : PageKind :=
  if v.flags &&& 0xf = linuxMapPrivate then .priv
  else
    match v.file, v.offset with
    | some file, some offset => .sharedFile file.inode offset
    | _, _ => .sharedAnon

/-- The kinds of all pages. -/
def kinds (w : VmaWorld Proc) (proc : Proc) (va : Nat) : Option PageKind := (w.pages proc va).map pageKind

/-- The attributes that the calls of `mmap.c` and `exec.c` give to pages. -/
structure AttrOk (v : PageAttr) : Prop where
  flags : v.flags &&& 0xf = linuxMapPrivate ∨ v.flags &&& 0xf = linuxMapShared
  backing : v.backing.isSome → v.flags &&& 0xf = linuxMapShared
  elf : v.usage = .elf → v.flags &&& 0xf = linuxMapPrivate

/-- VMA sets of processes. -/
structure WorldOk (w : VmaWorld Proc) : Prop where
  inv : ∃ base, WorldInv base w
  attr : ∀ proc x, pgsize ∣ x → ∀ v, w.pages proc x = some v → AttrOk v

/-! ## Areas -/

theorem areaPrivate_iff : areaPrivate area = true ↔ area.flags &&& 0xf = linuxMapPrivate := beq_iff_eq

theorem areaShared_iff : areaShared area = true ↔ area.flags &&& 0xf = linuxMapShared := beq_iff_eq

omit [DecidableEq Proc] in
/-- The area that `vma_find` returns, and the page it maps. -/
theorem WorldOk.find {address : Nat} (h : WorldOk w) (hf : vmaFind address (w.sets proc) = some area) :
    AreaWf area ∧ area.Has (pgrounddown address) ∧ AttrOk (area.page (pgrounddown address)) ∧
    kinds w proc (pgrounddown address) = some (pageKind (area.page (pgrounddown address))) := by
  obtain ⟨base, hinv⟩ := h.inv
  obtain ⟨hmem, hhas⟩ := (vmaFind_eq_some (hinv.areas proc)).mp hf
  have hwf := hinv.wf proc area hmem
  have hpages : w.pages proc (pgrounddown address) = some (area.page (pgrounddown address)) := by
    rw [← vmaFind_pages hinv, hf]
    rfl
  refine ⟨hwf, hwf.has_pgrounddown.mpr hhas, h.attr proc _ pgrounddown_dvd _ hpages, ?_⟩
  unfold kinds
  rw [hpages]
  rfl

theorem pageKind_private (h : areaPrivate area = true) : pageKind (area.page x) = .priv :=
  if_pos (areaPrivate_iff.mp h)

theorem flags_of_shared (h : areaPrivate area = false) : ¬ area.flags &&& 0xf = linuxMapPrivate := fun hc => by
  rw [areaPrivate_iff.mpr hc] at h
  cases h

theorem pageKind_file {file : VfsFile} (hwf : AreaWf area) (h : areaPrivate area = false)
    (hf : area.file = some file) :
    pageKind (area.page x) = .sharedFile file.inode (area.offset + (x - area.start)) := by
  have hoff : area.HasOffset := .inl (hwf.file_iff.mp (by rw [hf]; rfl))
  unfold pageKind VmArea.page
  simp only [hf, if_pos hoff, if_neg (flags_of_shared h)]

theorem pageKind_anon (h : areaPrivate area = false) (hf : area.file = none) :
    pageKind (area.page x) = .sharedAnon := by
  unfold pageKind VmArea.page
  simp only [hf, if_neg (flags_of_shared h)]

theorem pageKind_eq_priv (hwf : AreaWf area) : pageKind (area.page x) = .priv ↔ areaPrivate area = true := by
  refine ⟨fun hk => ?_, pageKind_private⟩
  by_contra hn
  have hn := Bool.eq_false_iff.mpr hn
  cases hf : area.file with
  | none => cases (pageKind_anon hn hf).symm.trans hk
  | some => cases (pageKind_file hwf hn hf).symm.trans hk

/-- An area is private or shared. -/
theorem AttrOk.shared (h : AttrOk (area.page x)) : areaShared area = true ↔ areaPrivate area = false := by
  rw [areaShared_iff, Bool.eq_false_iff, Ne, areaPrivate_iff]
  constructor
  · intro hs hp
    exact absurd (hs.symm.trans hp) (by decide)
  · exact fun hp => h.flags.resolve_left hp

/-! ## Calls -/

/-- Pages that were mapped keep their kind. -/
def Extends (w w' : VmaWorld Proc) : Prop :=
  ∀ proc x, pgsize ∣ x → kinds w proc x ≠ none → kinds w' proc x = kinds w proc x

omit [Fintype Proc] [DecidableEq Proc] in
theorem Extends.refl : Extends w w := fun _ _ _ _ => rfl

omit [Fintype Proc] in
theorem store_state : w.store proc (w.state proc) = w := by
  unfold store state
  rw [Function.update_eq_self]

omit [Fintype Proc] in
/-- A call on one set that fails without an effect. -/
theorem onSet_failed {f : VmaState → VmaState × Int} (hf : f (w.state proc) = (w.state proc, -1)) :
    w.onSet proc f = (w, -1) := by
  unfold onSet
  rw [hf]
  exact Prod.ext store_state rfl

variable {base : Refs} {new old : Proc}

section
variable (h : WorldOk w)
include h

/-- The world after an operation that sets the map of one process. -/
theorem WorldOk.becomes {m : Nat → Option PageAttr} (hinv : WorldInv base w')
    (hm : MapBecomes w.pages w'.pages proc m) (hattr : ∀ x, pgsize ∣ x → ∀ v, m x = some v → AttrOk v) :
    WorldOk w' := by
  refine ⟨⟨base, hinv⟩, fun other x hx v hv => ?_⟩
  rw [hm other x hx] at hv
  split at hv
  · exact hattr x hx v hv
  · exact h.attr other x hx v hv

/-- The pages of an area are added to the map of one process. -/
theorem WorldOk.adds {s' : VmaState} {new : VmArea} (hinv : WorldInv base w)
    (hs : Vma.Inv (others base w proc) s')
    (hmap : ∀ x, pgsize ∣ x → ∀ v, Maps s'.areas x v ↔ Maps (w.sets proc) x v ∨ (new.Has x ∧ new.page x = v))
    (hattr : ∀ x, AttrOk (new.page x)) : WorldOk (w.store proc s') ∧ Extends w (w.store proc s') := by
  have hpages : ∀ other x v, pgsize ∣ x → ((w.store proc s').pages other x = some v ↔
      w.pages other x = some v ∨ (other = proc ∧ new.Has x ∧ new.page x = v)) := by
    intro other x v hx
    unfold pages
    by_cases ho : other = proc
    · subst ho
      rw [store_sets_self, pageMap_eq_some hs.areas, hmap x hx v, pageMap_eq_some (hinv.areas other)]
      simp only [true_and]
    · rw [store_sets_of_ne w ho]
      simp only [ho, false_and, or_false]
  refine ⟨⟨⟨base, hinv.store proc hs⟩, fun other x hx v hv => ?_⟩, fun other x hx hk => ?_⟩
  · rcases (hpages other x v hx).mp hv with hv | ⟨_, _, rfl⟩
    · exact h.attr other x hx v hv
    · exact hattr x
  · unfold kinds at hk ⊢
    cases hv : w.pages other x with
    | none => exact absurd (by rw [hv]; rfl) hk
    | some v => rw [(hpages other x v hx).mpr (.inl hv)]

section
variable (proc : Proc) (outcome : Allocation)

/-- **A new area**, where nothing was, leaves the pages that are mapped alone. -/
theorem WorldOk.insertFileLength (new : VmArea) (hattr : ∀ x, AttrOk (new.page x)) :
    WorldOk (w.onSet proc fun s => vmaInsertFileLength outcome s new).1 ∧
    Extends w (w.onSet proc fun s => vmaInsertFileLength outcome s new).1 := by
  obtain ⟨base, hinv⟩ := h.inv
  rcases vmaInsertFileLength_spec outcome (hinv.state proc) new with hf | ⟨s', hok, hs, _, _, _, _, hmap⟩
  · rw [onSet_failed hf]
    exact ⟨h, .refl⟩
  · unfold onSet
    simp only [hok]
    exact h.adds hinv hs hmap hattr

variable (start finish protection flags : Nat)

/-- **`vma_insert`.** -/
theorem WorldOk.insert (origin : VmaOrigin) (usage : VmaUsage) (file : Option VfsFile) (offset : Nat)
    (hflags : flags &&& 0xf = linuxMapPrivate ∨ flags &&& 0xf = linuxMapShared) (husage : usage ≠ .elf) :
    WorldOk (w.step (.insert proc outcome start finish protection flags origin usage file offset)).1 ∧
    Extends w (w.step (.insert proc outcome start finish protection flags origin usage file offset)).1 :=
  h.insertFileLength proc outcome _ fun _ => ⟨hflags, fun hb => absurd hb Bool.false_ne_true,
    fun he => absurd he husage⟩

/-- **A new area with a mapping behind it.** -/
theorem WorldOk.insertBacked
    (usage : VmaUsage) (backing : VmaBacking) (offset : Nat) (hflags : flags &&& 0xf = linuxMapShared)
    (husage : usage ≠ .elf) :
    let r := .insertBacked proc outcome start finish protection flags usage (some backing) offset
    WorldOk (w.step r).1 ∧ Extends w (w.step r).1 := by
  intro r
  rcases vmaInsertBacked_cases outcome (w.state proc) start finish protection flags usage (some backing)
    offset with hf | ⟨k, _, hins⟩
  · have hstep : w.step r = (w, -1) :=
      onSet_failed (f := fun s =>
        vmaInsertBacked outcome s start finish protection flags usage (some backing) offset) hf
    rw [hstep]
    exact ⟨h, .refl⟩
  have hnew := h.insertFileLength proc outcome
    ⟨start, finish, offset, 0, protection, flags, .anonymous, usage, none, some k⟩
    fun x => ⟨.inr hflags, fun _ => hflags, fun he => absurd he husage⟩
  unfold r step onSet
  simp only [hins]
  exact hnew

end

/-- **A segment of a program** that shares no page with another. -/
theorem WorldOk.segment (split rest : Allocation) (e : ElfArgs) (hfind : vmaFind e.start (w.sets proc) = none) :
    WorldOk (w.step (.insertElfFile proc split rest e)).1 ∧
    Extends w (w.step (.insertElfFile proc split rest e)).1 := by
  obtain ⟨base, hinv⟩ := h.inv
  rcases vmaInsertElfFile_cases split rest (hinv.state proc) e with
    ⟨hr, _⟩ | ⟨s', hr, hs, _, hmap, _⟩ | ⟨o, _, hov, _⟩
  · have hstep : w.step (.insertElfFile proc split rest e) = (w, -1) :=
      onSet_failed (f := fun s => vmaInsertElfFile split rest s e) hr
    rw [hstep]
    exact ⟨h, .refl⟩
  · unfold step onSet
    simp only [hr]
    unfold ElfInserted at hmap
    have hfind' : vmaFind e.start (w.state proc).areas = none := hfind
    simp only [hfind'] at hmap
    have hflags : linuxMapPrivate &&& 0xf = linuxMapPrivate := by decide
    exact h.adds hinv hs hmap fun x =>
      ⟨.inl hflags, fun hb => absurd hb (by simp [VmArea.page, ElfArgs.area]), fun _ => hflags⟩
  · exact absurd (hfind.symm.trans hov.found) (by simp)

/-- **`vma_unmap`** takes the kinds of its range away, or fails and changes nothing. -/
theorem WorldOk.unmap (outcome : Allocation) (start finish : Nat) :
    let r := .unmap proc outcome start finish
    w.step r = (w, -1) ∨
    ((w.step r).2 = 0 ∧ WorldOk (w.step r).1 ∧ ∀ other x, pgsize ∣ x → kinds (w.step r).1 other x =
        if other = proc ∧ start ≤ x ∧ x < finish then none else kinds w other x) := by
  obtain ⟨base, hinv⟩ := h.inv
  rcases vmaUnmap_spec outcome (hinv.state proc) start finish with hf | ⟨s', hok, _⟩
  · exact .inl (onSet_failed (f := fun s => vmaUnmap outcome s start finish) hf)
  have hres : (w.step (.unmap proc outcome start finish)).2 = 0 := by
    show (vmaUnmap outcome (w.state proc) start finish).2 = 0
    rw [hok]
  have hmap := means_step hinv (.unmap proc outcome start finish) hres
  refine .inr ⟨hres, h.becomes (worldInv_step hinv _) hmap fun x hx v hv => ?_, fun other x hx => ?_⟩
  · split at hv
    · exact absurd hv (by simp)
    · exact h.attr proc x hx v hv
  · unfold kinds
    rw [hmap other x hx]
    by_cases ho : other = proc
    · subst ho
      by_cases hin : start ≤ x ∧ x < finish
      · simp only [hin, and_self, if_true, Option.map_none]
      · simp only [hin, and_false, if_true, if_false]
    · simp only [ho, false_and, if_false]

/-- **`vma_protect`** changes no kind. -/
theorem WorldOk.protect (startOutcome endOutcome : Allocation) (start finish protection : Nat) :
    let r := .protect proc startOutcome endOutcome start finish protection
    w.step r = (w, -1) ∨
    ((w.step r).2 = 0 ∧ WorldOk (w.step r).1 ∧ ∀ other x, pgsize ∣ x → kinds (w.step r).1 other x =
          kinds w other x) := by
  obtain ⟨base, hinv⟩ := h.inv
  rcases vmaProtect_spec startOutcome endOutcome (hinv.state proc) start finish protection with
    hf | ⟨s', hok, _⟩
  · exact .inl (onSet_failed
      (f := fun s => vmaProtect startOutcome endOutcome s start finish protection) hf)
  have hres : (w.step (.protect proc startOutcome endOutcome start finish protection)).2 = 0 := by
    show (vmaProtect startOutcome endOutcome (w.state proc) start finish protection).2 = 0
    rw [hok]
  have hmap := means_step hinv (.protect proc startOutcome endOutcome start finish protection) hres
  refine .inr ⟨hres, h.becomes (worldInv_step hinv _) hmap fun x hx v hv => ?_, fun other x hx => ?_⟩
  · split at hv
    · obtain ⟨v', hv', rfl⟩ := Option.map_eq_some_iff.mp hv
      have hok := h.attr proc x hx v' hv'
      exact ⟨hok.flags, hok.backing, hok.elf⟩
    · exact h.attr proc x hx v hv
  · unfold kinds
    rw [hmap other x hx]
    by_cases ho : other = proc
    · subst ho
      simp only [if_true]
      split
      · cases w.pages other x <;> rfl
      · rfl
    · simp only [ho, if_false]

/-- The maps of the other processes are not touched by calls on one set. -/
theorem WorldOk.others (hinv : WorldInv base w') (hsets : ∀ other, other ≠ proc → w'.sets other = w.sets other)
    (hempty : w'.sets proc = []) :
    WorldOk w' ∧ ∀ other x, kinds w' other x = if other = proc then none else kinds w other x := by
  have hpages : ∀ other x, w'.pages other x = if other = proc then none else w.pages other x := by
    intro other x
    unfold pages
    split
    · rename_i he
      rw [he, hempty]
      rfl
    · rename_i he
      rw [hsets other he]
  refine ⟨⟨⟨base, hinv⟩, fun other x hx v hv => ?_⟩, fun other x => ?_⟩
  · rw [hpages] at hv
    split at hv
    · exact absurd hv (by simp)
    · exact h.attr other x hx v hv
  · unfold kinds
    rw [hpages]
    split <;> rfl

/-- **`vma_set_destroy`** takes all kinds of a process away. -/
theorem WorldOk.destroy (proc : Proc) :
    WorldOk (w.step (.destroy proc)).1 ∧
    ∀ other x, kinds (w.step (.destroy proc)).1 other x = if other = proc then none else kinds w other x := by
  obtain ⟨base, hinv⟩ := h.inv
  exact h.others (worldInv_step hinv (.destroy proc)) (fun other ho => store_sets_of_ne w ho)
    (store_sets_self ..)

/-- **`vma_set_clone`** that succeeds gives the destination the kinds of the source. -/
theorem WorldOk.clone (outcome : Nat → Allocation) (hok : (w.step (.clone new old outcome)).2 = 0) :
    WorldOk (w.step (.clone new old outcome)).1 ∧
    ∀ other x, pgsize ∣ x → kinds (w.step (.clone new old outcome)).1 other x =
      if other = new then kinds w old x else kinds w other x := by
  obtain ⟨base, hinv⟩ := h.inv
  have hmap := vmaSetClone_means hinv new old hok
  refine ⟨h.becomes (worldInv_step hinv _) hmap fun x hx v hv => h.attr old x hx v hv,
    fun other x hx => ?_⟩
  unfold kinds
  rw [show (w.step (.clone new old outcome)).1.pages other x = _ from hmap other x hx]
  split <;> rfl

/-- A clone that failed is taken apart again. -/
theorem WorldOk.clone_destroy (hne : new ≠ old) {outcome : Nat → Allocation} :
    WorldOk ((w.step (.clone new old outcome)).1.step (.destroy new)).1 ∧
    ∀ other x, kinds ((w.step (.clone new old outcome)).1.step (.destroy new)).1 other x =
      if other = new then none else kinds w other x := by
  obtain ⟨base, hinv⟩ := h.inv
  refine h.others (worldInv_step (worldInv_step hinv (.clone new old outcome)) (.destroy new))
    (fun other ho => ?_) (store_sets_self ..)
  show ((vmaSetClone outcome w new old).1.destroy new).sets other = w.sets other
  unfold VmaWorld.destroy
  rw [store_sets_of_ne _ ho]
  unfold vmaSetClone
  rw [if_neg hne]
  exact (store_sets_of_ne _ ho).trans (store_sets_of_ne _ ho)

end

end Caffeinix.Mm
