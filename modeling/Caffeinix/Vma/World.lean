import Caffeinix.Vma.Elf
import Mathlib.Algebra.BigOperators.Group.Finset.Basic
import Mathlib.Data.Fintype.BigOperators

/-!
# `Vma.World` — any number of VMA sets over the same counters

Sets are named by handles. A world is the areas of every set with the counters they share; a step is one call,
with whatever outcomes its allocations meet. `WorldInv` says that every set is well formed and that each
counter is what it was before the first call plus one for every area that holds it.
-/

namespace Caffeinix.Vma

open Finset Intervals List Equiv
open Function (update update_of_ne update_self)

variable {Handle : Type} [Fintype Handle] [DecidableEq Handle]

/-- All sets and the counters. -/
structure VmaWorld (Handle : Type) where
  refs : Refs
  sets : Handle → List VmArea

variable (w : VmaWorld Handle)

variable (set : Handle)

/-- One set with the counters. -/
def VmaWorld.state : VmaState := ⟨w.refs, w.sets set⟩

/-- The world after an operation on one set. -/
def VmaWorld.store (s : VmaState) : VmaWorld Handle :=
  ⟨s.refs, update w.sets set s.areas⟩

omit [Fintype Handle] in
@[simp] theorem store_sets_self (s : VmaState) : (w.store set s).sets set = s.areas := update_self ..

omit [Fintype Handle] in
theorem store_sets_of_ne {set other : Handle} {s : VmaState} (h : other ≠ set) :
    (w.store set s).sets other = w.sets other := update_of_ne h _ _

/-- `vma_set_destroy`, in the world. -/
def VmaWorld.destroy : VmaWorld Handle :=
  w.store set (vmaSetDestroy (w.state set))

/-- `vma_set_move`: the list changes hands with its references. -/
def vmaSetMove (destination source : Handle) : VmaWorld Handle :=
  if destination = source then w
  else
    let w := w.destroy destination
    ⟨w.refs, update (update w.sets destination (w.sets source)) source []⟩

/-- `vma_set_clone`. -/
def vmaSetClone (outcome : Nat → Allocation) (w : VmaWorld Handle) (destination source : Handle) :
    VmaWorld Handle × Int :=
  if destination = source then (w, 0)
  else
    let w := w.destroy destination
    let p := vmaCloneLoop outcome (w.state destination) 0 (w.sets source)
    (w.store destination p.1, p.2)

/-- A call. -/
inductive VmaOp (Handle : Type)
  | insert (set : Handle) (outcome : Allocation) (start finish protection flags : Nat) (origin : VmaOrigin)
      (usage : VmaUsage) (file : Option VfsFile) (offset : Nat)
  | insertBacked (set : Handle) (outcome : Allocation) (start finish protection flags : Nat)
      (usage : VmaUsage) (backing : Option VmaBacking) (offset : Nat)
  | insertElfFile (set : Handle) (split rest : Allocation) (e : ElfArgs)
  | unmap (set : Handle) (outcome : Allocation) (start finish : Nat)
  | protect (set : Handle) (startOutcome endOutcome : Allocation) (start finish protection : Nat)
  | clone (destination source : Handle) (outcome : Nat → Allocation)
  | move (destination source : Handle)
  | destroy (set : Handle)

/-- Running an operation of one set in the world. -/
def VmaWorld.onSet (f : VmaState → VmaState × Int) : VmaWorld Handle × Int :=
  (w.store set (f (w.state set)).1, (f (w.state set)).2)

/-- One call: the world after it and what it returns. -/
def VmaWorld.step : VmaOp Handle → VmaWorld Handle × Int
  | .insert set outcome start finish protection flags origin usage file offset =>
    w.onSet set fun s => vmaInsert outcome s start finish protection flags origin usage file offset
  | .insertBacked set outcome start finish protection flags usage backing offset =>
    w.onSet set fun s => vmaInsertBacked outcome s start finish protection flags usage backing offset
  | .insertElfFile set split rest e => w.onSet set fun s => vmaInsertElfFile split rest s e
  | .unmap set outcome start finish => w.onSet set fun s => vmaUnmap outcome s start finish
  | .protect set startOutcome endOutcome start finish protection =>
    w.onSet set fun s => vmaProtect startOutcome endOutcome s start finish protection
  | .clone destination source outcome => vmaSetClone outcome w destination source
  | .move destination source => (vmaSetMove w destination source, 0)
  | .destroy set => (w.destroy set, 0)

/-- The world after a list of calls, from `vma_set_init` on every set. -/
def vmaRun (refs : Refs) (ops : List (VmaOp Handle)) : VmaWorld Handle :=
  ops.foldl (fun w op => (w.step op).1) ⟨refs, fun _ => []⟩

/-! ## The invariant -/

/-- **The invariant of the world.** -/
structure WorldInv (base : Refs) (w : VmaWorld Handle) : Prop where
  areas : ∀ set, Areas 0 (w.sets set) maxva
  wf : ∀ set, ∀ a ∈ w.sets set, AreaWf a
  refs : ∀ k, w.refs k = base k + ∑ set, (heldRefs (w.sets set)).count k

/-- What everything but one set accounts for. -/
def others (base : Refs) (w : VmaWorld Handle) (set : Handle) : Refs := fun k =>
  base k + ∑ other ∈ Finset.univ.erase set, (heldRefs (w.sets other)).count k

variable {base : Refs} {w : VmaWorld Handle} {s : VmaState}

section
variable (h : WorldInv base w)
include h

theorem WorldInv.state : Inv (others base w set) (w.state set) := by
  refine ⟨h.areas set, h.wf set, fun k => ?_⟩
  show w.refs k = _
  rw [h.refs k, ← add_sum_erase _ _ (mem_univ set)]
  show _ = base k + _ + (heldRefs (w.sets set)).count k
  omega

theorem WorldInv.store (hs : Inv (others base w set) s) : WorldInv base (w.store set s) := by
  refine ⟨fun set' => ?_, fun set' => ?_, fun k => ?_⟩
  · by_cases he : set' = set
    · rw [he, store_sets_self]; exact hs.areas
    · rw [store_sets_of_ne w he]; exact h.areas set'
  · by_cases he : set' = set
    · rw [he, store_sets_self]; exact hs.wf
    · rw [store_sets_of_ne w he]; exact h.wf set'
  · have hk := hs.refs k
    rw [← add_sum_erase _ _ (mem_univ set), store_sets_self]
    have hsum : ∑ other ∈ Finset.univ.erase set, (heldRefs ((w.store set s).sets other)).count k =
        ∑ other ∈ Finset.univ.erase set, (heldRefs (w.sets other)).count k :=
      sum_congr rfl fun other ho => by
        rw [store_sets_of_ne w (ne_of_mem_erase ho)]
    rw [hsum]
    show s.refs k = _
    rw [hk]
    show base k + _ + _ = _
    omega

/-! ## Whole sets -/

omit h in
/-- `vma_set_destroy` returns what the set held. -/
theorem vmaSetDestroy_spec (h : Inv base s) : Inv base (vmaSetDestroy s) ∧ (vmaSetDestroy s).refs = base := by
  have hrefs : (vmaSetDestroy s).refs = base := by
    funext k
    show s.areas.foldl vmaRelease s.refs k = base k
    rw [foldl_release, h.refs k]
    omega
  refine ⟨⟨Nat.zero_le _, fun a ha => absurd ha not_mem_nil, fun k => ?_⟩, hrefs⟩
  rw [hrefs]
  rfl

omit h in
/-- The loop of `vma_set_clone` adds every page of the areas it goes through, or destroys what it built. -/
theorem vmaCloneLoop_spec {outcome : Nat → Allocation} {areas : List VmArea} :
    ∀ (i : Nat) (s : VmaState) (base : Refs), Inv base s →
      Inv base (vmaCloneLoop outcome s i areas).1 ∧
      ((vmaCloneLoop outcome s i areas).2 = 0 → ∀ x, pgsize ∣ x → ∀ v,
        (Maps (vmaCloneLoop outcome s i areas).1.areas x v ↔ Maps s.areas x v ∨ Maps areas x v)) := by
  induction areas with
  | nil =>
    intro i s base h
    exact ⟨h, fun _ x _ v => by simp [vmaCloneLoop]⟩
  | cons a areas ih =>
    intro i s base h
    unfold vmaCloneLoop
    rcases vmaInsertFileLength_spec (outcome i) h a with hf | ⟨s', hok, hinv, _, _, _, _, hmap⟩
    · rw [hf]
      exact ⟨(vmaSetDestroy_spec h).1, fun hr => absurd hr (by show ¬ (-1 : Int) = 0; decide)⟩
    rw [hok]
    obtain ⟨h1, h2⟩ := ih (i + 1) s' base hinv
    refine ⟨h1, fun hr x hx v => ?_⟩
    refine (h2 hr x hx v).trans ?_
    rw [hmap x hx v, maps_cons, or_assoc]

theorem WorldInv.destroy : WorldInv base (w.destroy set) :=
  h.store set (vmaSetDestroy_spec (h.state set)).1

theorem WorldInv.clone (outcome : Nat → Allocation) (destination source : Handle) :
    WorldInv base (vmaSetClone outcome w destination source).1 := by
  unfold vmaSetClone
  split
  · exact h
  · have hd := h.destroy destination
    exact hd.store destination (vmaCloneLoop_spec 0 _ _ (hd.state destination)).1

/-- Moving a list between two sets, one of them empty, keeps the invariant. -/
theorem WorldInv.move (destination source : Handle) : WorldInv base (vmaSetMove w destination source) := by
  unfold vmaSetMove
  split
  · exact h
  rename_i hne
  have hd := h.destroy destination
  have hempty : (w.destroy destination).sets destination = [] := store_sets_self ..
  generalize w.destroy destination = w' at hd hempty
  -- exchange the two lists: every sum over all sets stays the same
  have hperm : update (update w'.sets destination (w'.sets source)) source [] =
      w'.sets ∘ swap destination source := by
    funext set
    by_cases h1 : set = source
    · subst h1
      rw [update_self, Function.comp_apply, swap_apply_right, hempty]
    rw [update_of_ne h1]
    by_cases h2 : set = destination
    · subst h2
      rw [update_self, Function.comp_apply, swap_apply_left]
    · rw [update_of_ne h2, Function.comp_apply, swap_apply_of_ne_of_ne h2 h1]
  simp only [hperm]
  refine ⟨fun set => hd.areas _, fun set => hd.wf _, fun k => ?_⟩
  rw [hd.refs k]
  congr 1
  exact (sum_comp (swap destination source)
    fun set => (heldRefs (w'.sets set)).count k).symm

/-- An operation of one set that keeps the set's invariant keeps the world's. -/
theorem WorldInv.onSet {f : VmaState → VmaState × Int} (hf : ∀ base s, Inv base s → Inv base (f s).1) :
    WorldInv base (w.onSet set f).1 :=
  h.store set (hf _ _ (h.state set))

omit h in
theorem vmaInsertFileLength_inv {outcome : Allocation} (h : Inv base s) {new : VmArea} :
    Inv base (vmaInsertFileLength outcome s new).1 := by
  rcases vmaInsertFileLength_spec outcome h new with hf | ⟨s', hok, hinv, _⟩
  · rw [hf]; exact h
  · rw [hok]; exact hinv

/-- **One call keeps the invariant**, whether it succeeds or fails. -/
theorem worldInv_step (op : VmaOp Handle) : WorldInv base (w.step op).1 := by
  cases op with
  | insert set =>
    exact h.onSet set fun base s hs => vmaInsertFileLength_inv hs
  | insertBacked set outcome start finish protection flags usage backing offset =>
    refine h.onSet set fun base s hs => ?_
    rcases vmaInsertBacked_cases outcome s start finish protection flags usage backing offset with
      hf | ⟨k, _, hins⟩
    · rw [hf]; exact hs
    · rw [hins]; exact vmaInsertFileLength_inv hs
  | insertElfFile set split rest e =>
    exact h.onSet set fun base s hs => vmaInsertElfFile_inv split rest hs e
  | unmap set outcome start finish =>
    refine h.onSet set fun base s hs => ?_
    rcases vmaUnmap_spec outcome hs start finish with hf | ⟨s', hok, hinv, _⟩
    · rw [hf]; exact hs
    · rw [hok]; exact hinv
  | protect set startOutcome endOutcome start finish protection =>
    refine h.onSet set fun base s hs => ?_
    rcases vmaProtect_spec startOutcome endOutcome hs start finish protection with hf | ⟨s', hok, hinv, _⟩
    · rw [hf]; exact hs
    · rw [hok]; exact hinv
  | clone destination source outcome => exact h.clone outcome destination source
  | move destination source => exact h.move destination source
  | destroy set => exact h.destroy set

omit h in
/-- **Every run keeps the invariant.** -/
theorem worldInv_run (refs : Refs) (ops : List (VmaOp Handle)) : WorldInv refs (vmaRun refs ops) := by
  have hfold : ∀ (ops : List (VmaOp Handle)) (w : VmaWorld Handle), WorldInv refs w →
      WorldInv refs (ops.foldl (fun w op => (w.step op).1) w) := by
    intro ops
    induction ops with
    | nil => intro w h; exact h
    | cons op ops ih => intro w h; exact ih _ (worldInv_step h op)
  refine hfold ops _ ⟨fun _ => Nat.zero_le _, fun _ a ha => absurd ha not_mem_nil, fun k => ?_⟩
  show refs k = refs k + ∑ set : Handle, 0
  rw [sum_const_zero]
  rfl

/-! ## The structure of every set, and every reference returned -/

/-- What a set of areas looks like. -/
structure SetWellFormed (areas : List VmArea) : Prop where
  /-- sorted by address and pairwise disjoint -/
  sorted : areas.Pairwise fun a b => a.finish ≤ b.start
  nonempty : ∀ a ∈ areas, a.start < a.finish
  aligned : ∀ a ∈ areas, pgsize ∣ a.start ∧ pgsize ∣ a.finish
  below : ∀ a ∈ areas, a.finish ≤ maxva
  file : ∀ a ∈ areas, (a.file.isSome ↔ a.origin = .fileBacked)
  length : ∀ a ∈ areas, a.fileLength ≤ a.finish - a.start
  length_zero : ∀ a ∈ areas, a.origin ≠ .fileBacked → a.fileLength = 0
  no_wrap : ∀ a ∈ areas, a.HasOffset → a.offset + (a.finish - a.start) < 2 ^ 64

omit [DecidableEq Handle] in
theorem WorldInv.wellFormed : SetWellFormed (w.sets set) where
  sorted := (h.areas set).sorted
  nonempty := fun a ha => ((h.areas set).mem ha).2.1
  aligned := fun a ha => ⟨(h.wf set a ha).start_page, (h.wf set a ha).finish_page⟩
  below := fun a ha => ((h.areas set).mem ha).2.2
  file := fun a ha => (h.wf set a ha).file_iff
  length := fun a ha => (h.wf set a ha).length
  length_zero := fun a ha hne => by
    refine (h.wf set a ha).length_zero ?_
    cases ho : a.origin with
    | anonymous => rfl
    | fileBacked => exact absurd ho hne
  no_wrap := fun a ha ho => by
    have := (h.wf set a ha).no_wrap ho
    unfold uint64Max at this
    omega

end

/-- A count over the areas of a list, when each area contributes at most one. -/
theorem heldRefs_count {k : RefKey} {p : VmArea → Bool}
    (hp : ∀ a : VmArea, a.refs.count k = if p a then 1 else 0) {areas : List VmArea} :
    (heldRefs areas).count k = areas.countP p := by
  induction areas with
  | nil => rfl
  | cons a areas ih =>
    rw [heldRefs_cons, count_append, countP_cons, ih, hp a, Nat.add_comm]

theorem heldRefs_count_file (f : VfsFile) (areas : List VmArea) :
    (heldRefs areas).count (.file f) = areas.countP fun a => a.file = some f := by
  refine heldRefs_count (fun a => ?_)
  unfold VmArea.refs areaRefs
  cases a.file with
  | none => cases a.backing <;> simp
  | some g => cases a.backing <;> by_cases hu : a.usage = .elf <;> by_cases hg : g = f <;> simp [hu, hg]

theorem heldRefs_count_exec (inode : Nat) (areas : List VmArea) :
    (heldRefs areas).count (.exec inode) =
      areas.countP fun a => a.usage = .elf ∧ a.file.map VfsFile.inode = some inode := by
  refine heldRefs_count (fun a => ?_)
  unfold VmArea.refs areaRefs
  cases a.file with
  | none => cases a.backing <;> simp
  | some g =>
    cases a.backing <;> by_cases hu : a.usage = .elf <;> by_cases hg : g.inode = inode <;> simp [hu, hg]

theorem heldRefs_count_backing (b : VmaBacking) (areas : List VmArea) :
    (heldRefs areas).count (.backing b) = areas.countP fun a => a.backing = some b := by
  refine heldRefs_count (fun a => ?_)
  unfold VmArea.refs areaRefs
  cases a.backing with
  | none => cases a.file <;> by_cases hu : a.usage = .elf <;> simp [hu]
  | some c =>
    cases a.file <;> by_cases hu : a.usage = .elf <;> by_cases hc : c = b <;> simp [hu, hc]

/-- Destroying sets keeps the invariant and leaves each of them empty. -/
theorem WorldInv.destroyAll {handles : List Handle} : ∀ (w : VmaWorld Handle), WorldInv base w →
    WorldInv base (handles.foldl VmaWorld.destroy w) ∧
    ∀ set, set ∈ handles ∨ w.sets set = [] → (handles.foldl VmaWorld.destroy w).sets set = [] := by
  induction handles with
  | nil =>
    intro w h
    refine ⟨h, fun set hs => ?_⟩
    rcases hs with hs | hs
    · exact absurd hs not_mem_nil
    · exact hs
  | cons first handles ih =>
    intro w h
    obtain ⟨h1, h2⟩ := ih (w.destroy first) (h.destroy first)
    refine ⟨h1, fun set hs => h2 set ?_⟩
    by_cases he : set = first
    · right
      rw [he]
      exact store_sets_self ..
    rcases hs with hs | hs
    · exact .inl ((mem_cons.mp hs).resolve_left he)
    · right
      rw [← hs]
      exact store_sets_of_ne w he

/-- **Every set is well formed and every reference is accounted for, after any sequence of calls**, failed
    ones included: each counter has grown by one for every area that holds it — its file, the executors of
    its file's inode if it is an ELF mapping, its backing — and destroying all sets returns everything. -/
theorem vma_structure (refs : Refs) (ops : List (VmaOp Handle)) :
    (∀ set, SetWellFormed ((vmaRun refs ops).sets set)) ∧
    (∀ f, (vmaRun refs ops).refs (.file f) = refs (.file f) +
      ∑ set, ((vmaRun refs ops).sets set).countP fun a => a.file = some f) ∧
    (∀ inode, (vmaRun refs ops).refs (.exec inode) = refs (.exec inode) +
      ∑ set, ((vmaRun refs ops).sets set).countP fun a =>
        a.usage = .elf ∧ a.file.map VfsFile.inode = some inode) ∧
    (∀ b, (vmaRun refs ops).refs (.backing b) = refs (.backing b) +
      ∑ set, ((vmaRun refs ops).sets set).countP fun a => a.backing = some b) ∧
    ∀ handles : List Handle, (∀ set, set ∈ handles) →
      (handles.foldl VmaWorld.destroy (vmaRun refs ops)).refs = refs ∧
      ∀ set, (handles.foldl VmaWorld.destroy (vmaRun refs ops)).sets set = [] := by
  have h := worldInv_run refs ops
  refine ⟨h.wellFormed, fun f => ?_, fun inode => ?_, fun b => ?_, fun handles hall => ?_⟩
  · rw [h.refs]
    simp only [heldRefs_count_file]
  · rw [h.refs]
    simp only [heldRefs_count_exec]
  · rw [h.refs]
    simp only [heldRefs_count_backing]
  · obtain ⟨hinv, hempty⟩ := h.destroyAll
    have hempty' := fun set => hempty set (.inl (hall set))
    refine ⟨?_, hempty'⟩
    funext k
    rw [hinv.refs k]
    simp only [hempty', heldRefs_nil, count_nil, sum_const_zero, Nat.add_zero]

end Caffeinix.Vma
