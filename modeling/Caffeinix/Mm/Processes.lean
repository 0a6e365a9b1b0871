import Caffeinix.Mm.Calls

/-!
# `Mm.Processes` — the invariant through fork, exit, pins and reclaim

While `vm_copy` runs, the child has leaves but no areas yet; its addresses have the parent's kinds then. If
the fork fails, all its leaves are gone before anything else can happen.
-/

namespace Caffeinix.Mm

open Function List Vma MemInv Machine
open Multiset (add_cons cons_add cons_coe coe_eq_coe)

variable {Proc : Type} [Fintype Proc] [DecidableEq Proc] {g : Ghost Proc} {s s' : Machine Proc}
  {hand : Multiset Page} {page : Page} {pte : Pte Proc} {proc : Proc} {bytes : Nat → Nat → UInt8}
  {coherent : Prop}

/-! ## Processes come and go -/

theorem MemInv.spawn (h : MemInv bytes coherent s) (proc : Proc) :
    MemInv bytes coherent (processPagedir s proc).1 := by
  obtain ⟨h1, h2⟩ := h.inv.processPagedir proc
  exact h.keep h1 h2.vmas

/-- The kinds of the other processes. -/
def without (kind : Proc → Nat → Option PageKind) (proc : Proc) : Proc → Nat → Option PageKind :=
  fun other x => if other = proc then none else kind other x

variable {kind : Proc → Nat → Option PageKind}

/-- All leaves of a process go, and with them its kinds. -/
theorem MemInv.freeUser (hw : WorldOk s.vmas)
    (hk : ∀ other x, pgsize ∣ x → kinds s.vmas other x = without kind proc other x)
    (h : Inv ⟨kind, bytes, coherent⟩ s 0) : MemInv bytes coherent (vmFreeUser s proc) := by
  obtain ⟨h1, h2, h3⟩ := h.vmFreeUser proc
  refine rekind (h2 ▸ hw) h1 fun pte hp hva _ => ?_
  rw [h2, hk _ _ hva]
  exact if_neg (h3 pte hp).2

section
variable (h : MemInv bytes coherent s)
include h

/-- **`process_release_resources`.** -/
theorem MemInv.processReleaseResources (proc : Proc) :
    MemInv bytes coherent (processReleaseResources s proc) := by
  obtain ⟨h1, _, h3⟩ := h.inv.vma (.destroy proc)
  obtain ⟨hw, hk⟩ := h.world.destroy proc
  have h1 : Inv ⟨kinds s.vmas, bytes, coherent⟩ (unmapSigreturn (s.vma (.destroy proc)).1 proc) 0 := { h1 with }
  refine freeUser (by rw [← h3] at hw; exact hw) (fun other x _ => ?_) h1
  rw [← h3] at hk
  exact hk other x

omit h in
/-- `process_free`, from a state in which the leaves of the process may have any kinds. -/
theorem MemInv.processFree_of (hw : WorldOk (s.vmas.step (.destroy proc)).1)
    (hk : ∀ other x, pgsize ∣ x → kinds (s.vmas.step (.destroy proc)).1 other x = without kind proc other x)
    (h : Inv ⟨kind, bytes, coherent⟩ s 0) : MemInv bytes coherent (processFree s proc) := by
  obtain ⟨h1, _, h3⟩ := h.vma (.destroy proc)
  have h1 : Inv ⟨kind, bytes, coherent⟩ (unmapSigreturn (s.vma (.destroy proc)).1 proc) 0 := { h1 with }
  rw [← h3] at hw hk
  have hm : MemInv bytes coherent (Mm.vmFreeUser (unmapSigreturn (s.vma (.destroy proc)).1 proc) proc) :=
    freeUser hw hk h1
  obtain ⟨h4, h5⟩ := hm.inv.pagedirFree proc
  exact hm.keep h4 h5.vmas

/-- **`process_free`.** -/
theorem MemInv.processFree (proc : Proc) : MemInv bytes coherent (processFree s proc) :=
  processFree_of (h.world.destroy proc).1 (fun other x _ => (h.world.destroy proc).2 other x) h.inv

omit h in
theorem vmaCloneLoop_result {outcome : Nat → Allocation} {areas : List VmArea} :
    ∀ (i : Nat) (s : VmaState), (vmaCloneLoop outcome s i areas).2 = 0 ∨
      (vmaCloneLoop outcome s i areas).2 = -1 := by
  induction areas with
  | nil => intro i s; exact .inl rfl
  | cons area areas ih =>
    intro i s
    unfold vmaCloneLoop
    simp only
    split
    · exact .inr rfl
    · exact ih (i + 1) _

/-- **Fork**, whether it succeeds or fails half-way. -/
theorem MemInv.processFork (old new : Proc) (outcome : Nat → Allocation) :
    MemInv bytes coherent (processFork s old new outcome).1 := by
  unfold Mm.processFork
  split
  · exact h
  rename_i hargs
  simp only [Bool.or_eq_true, decide_eq_true_eq, Bool.not_eq_true', not_or, Bool.not_eq_false] at hargs
  obtain ⟨hne, hblank⟩ := hargs
  have hempty : ∀ pte ∈ s.ptes, pte.proc ≠ new := by
    unfold blank at hblank
    simp only [Bool.and_eq_true, all_eq_true, decide_eq_true_eq] at hblank
    exact hblank.2
  obtain ⟨iP, kP⟩ := h.inv.processPagedir new
  simp only
  split
  · exact h.keep iP kP.vmas
  generalize (Mm.processPagedir s new).1 = s1 at *
  -- from here on the child's addresses have the kinds of the parent's
  generalize hkind' : (fun p x => if p = new then kinds s.vmas old x else kinds s.vmas p x :
    Proc → Nat → Option PageKind) = kind'
  have hchild : ∀ x, kind' new x = kind' old x := fun x => by
    rw [← hkind']
    simp only [if_true, if_neg hne]
  have hparent : ∀ x, kind' old x = kinds s1.vmas old x := fun x => by
    rw [← hkind', kP.vmas]
    simp only [if_neg hne]
  have hwithout : without kind' new = without (kinds s.vmas) new := by
    rw [← hkind']
    funext p x
    unfold without
    split
    · rfl
    · rename_i hp
      simp only [if_neg hp]
  have hempty1 : ∀ pte ∈ s1.ptes, pte.proc ≠ new := by rwa [kP.ptes]
  have i1 : Inv ⟨kind', bytes, coherent⟩ s1 0 := iP.congr_kind fun pte hp => by
    rw [← hkind']
    exact if_neg (hempty1 pte hp)
  have w1 : WorldOk s1.vmas := kP.vmas ▸ h.world
  obtain ⟨iC, vC, hfail⟩ := i1.vmCopy w1 hne (fun x _ => hparent x) hchild hempty1
  generalize Mm.vmCopy s1 old new = C at *
  obtain ⟨sC, copied⟩ := C
  simp only at iC vC hfail ⊢
  have vC : sC.vmas = s.vmas := vC.trans kP.vmas
  have wC : WorldOk sC.vmas := vC ▸ h.world
  cases copied with
  | false =>
    simp only [Bool.not_false, if_true]
    split
    · -- the kernel has stopped; the child's leaves are gone
      refine rekind wC iC fun pte hp _ _ => ?_
      rw [vC, ← hkind']
      exact (if_neg (hfail rfl pte hp)).symm
    · refine processFree_of (wC.destroy new).1 (fun other x _ => ?_) iC
      rw [(wC.destroy new).2, vC, hwithout]
      rfl
  | true =>
    simp only [Bool.not_true, Bool.false_eq_true, if_false]
    obtain ⟨iV, _, vV⟩ := iC.vma (.clone new old outcome)
    have hres := sC.vma_result (.clone new old outcome)
    generalize sC.vma (.clone new old outcome) = V at *
    split
    · -- the child has some areas, or none
      obtain ⟨hw, hk⟩ := wC.clone_destroy (Ne.symm hne)
      rw [← vV] at hw hk
      refine processFree_of hw (fun other x _ => ?_) iV
      rw [hk, vC, hwithout]
      rfl
    rename_i hlt
    have hok : (sC.vmas.step (.clone new old outcome)).2 = 0 := by
      have hcases : (vmaSetClone outcome sC.vmas new old).2 = 0 ∨
          (vmaSetClone outcome sC.vmas new old).2 = -1 := by
        unfold vmaSetClone
        rw [if_neg (Ne.symm hne)]
        exact vmaCloneLoop_result 0 _
      refine hcases.resolve_right fun hc => hlt ?_
      rw [hres]
      show (vmaSetClone outcome sC.vmas new old).2 < 0
      rw [hc]
      decide
    obtain ⟨hw, hk⟩ := wC.clone outcome hok
    rw [← vV] at hw hk
    refine rekind hw iV fun pte _ hva _ => ?_
    rw [hk _ _ hva, vC, ← hkind']

/-! ## Pins and pages of the kernel -/

omit h [Fintype Proc] [DecidableEq Proc] in
/-- **A page is pinned**: its count and its pins grow together. -/
theorem Inv.pin (h : Inv g s hand) (hpos : s.refs page ≠ 0) (hmax : s.refs page ≠ uint32Max) :
    Inv g { s with refs := update s.refs page (s.refs page + 1), pins := page :: s.pins } hand := by
  refine { h with
    counted := ?_
    live := (h.refs_succ hpos hmax).1
    bound := (h.refs_succ hpos hmax).2
    mapped := fun pte hp => { h.mapped pte hp with exclusive := fun hw hk => ?_ } }
  · have hheld : ({ s with refs := update s.refs page (s.refs page + 1), pins := page :: s.pins } :
        Machine Proc).held = page ::ₘ s.held := by
      unfold held
      simp only [← cons_coe, add_cons, cons_add]
    rw [hheld, add_cons]
    exact h.counted.take page
  · have hex := (h.mapped pte hp).exclusive hw hk
    show update s.refs page (s.refs page + 1) pte.page = 1 + (page :: s.pins).count pte.page
    by_cases ho : pte.page = page
    · rw [ho, update_self, count_cons_self, ← ho, hex]
      omega
    · rw [update_of_ne ho, count_cons_of_ne (Ne.symm ho), hex]

omit h [Fintype Proc] [DecidableEq Proc] in
/-- **A pin goes**, and its reference with it. -/
theorem Inv.unpin (h : Inv g s hand) (hpin : page ∈ s.pins) :
    Inv g (Mm.pfree { s with pins := s.pins.erase page } page) hand := by
  have hcount : 0 < s.pins.count page := count_pos_iff.mpr hpin
  have hrefs := h.refs_eq page
  have hpos : s.refs page ≠ 0 := by omega
  have heq : Mm.pfree { s with pins := s.pins.erase page } page = { Mm.pfree s page with
      pins := s.pins.erase page } := by
    rw [h.pfree_eq hpos]
    unfold Mm.pfree
    rw [if_neg (by simp [hpos, (h.live page).mpr hpos])]
  rw [heq, h.pfree_eq hpos]
  refine { h with
    counted := ?_
    live := (h.refs_pred hpos).1
    bound := (h.refs_pred hpos).2
    mapped := fun pte hp => { h.mapped pte hp with exclusive := fun hw hk => ?_ } }
  · have hheld : s.held = page ::ₘ ({ s with pins := s.pins.erase page } : Machine Proc).held := by
      have hperm : (s.pins : Multiset Page) = page ::ₘ ↑(s.pins.erase page) :=
        coe_eq_coe.mpr (perm_cons_erase hpin)
      unfold held
      simp only [hperm, cons_add, add_cons]
    have hcounted := h.counted
    rw [hheld, add_cons] at hcounted
    exact hcounted.drop
  · have hex := (h.mapped pte hp).exclusive hw hk
    show update s.refs page (s.refs page - 1) pte.page = 1 + (s.pins.erase page).count pte.page
    by_cases ho : pte.page = page
    · rw [ho, update_self, count_erase_self, ← ho, hex]
      rw [← ho] at hcount
      omega
    · rw [update_of_ne ho, count_erase_of_ne ho, hex]

/-- **`user_copy_va2pa_pinned`.** -/
theorem MemInv.userCopyPin (proc : Proc) (va : Nat) (write : Bool) :
    MemInv bytes coherent (userCopyPin s proc va write) := by
  unfold Mm.userCopyPin
  split
  · exact h
  rename_i pte hfind
  obtain ⟨hp, _⟩ := h.inv.findPte_eq_some.mp hfind
  have hdirty : MemInv bytes coherent (if write = true then s.setPte pte { pte with d := true } else s) := by
    split
    · have hset : Inv ⟨kinds s.vmas, bytes, coherent⟩ (s.setPte pte { pte with d := true }) 0 :=
        h.inv.setPte hp rfl rfl { h.inv.mapped pte hp with }
      exact h.keep hset rfl
    · exact h
  by_cases hperm : (!pte.perm.u || !(if write = true then pte.perm.w else pte.perm.r)) = true
  · rw [if_pos hperm]
    exact h
  rw [if_neg hperm]
  generalize (if write = true then s.setPte pte { pte with d := true } else s) = s1 at *
  rcases pallocGet_cases s1 pte.page with hf | ⟨hpos, hmax, hok⟩
  · simp only [hf, Bool.false_eq_true, if_false]
    exact hdirty
  · simp only [hok, if_true]
    exact hdirty.keep (hdirty.inv.pin hpos hmax) rfl

omit [DecidableEq Proc] in
/-- **The copy is done.** -/
theorem MemInv.userCopyUnpin (page : Page) : MemInv bytes coherent (userCopyUnpin s page) := by
  unfold Mm.userCopyUnpin
  split
  · rename_i hpin
    exact h.keep (h.inv.unpin hpin) pfree_vmas
  · exact h

omit [DecidableEq Proc] in
theorem MemInv.kernelAlloc : MemInv bytes coherent (kernelAlloc s) := by
  unfold Mm.kernelAlloc
  have fP := allocPages_allocs s false
  rcases h.inv.allocPages false with ⟨hn, hinv⟩ | ⟨page, hp, _, _, hinv⟩
  · simp only [hn]
    exact h.keep hinv fP.vmas
  simp only [hp]
  refine h.keep { hinv with counted := ?_ } fP.vmas
  have hcounted := hinv.counted
  generalize (Mm.allocPages s false).1 = sP at *
  have hheld : ({ sP with kernel := page :: sP.kernel } : Machine Proc).held = page ::ₘ sP.held := by
    unfold held
    simp only [← cons_coe, add_cons]
  rw [hheld, add_cons, ← cons_add]
  exact hcounted

theorem MemInv.kernelFree (page : Page) : MemInv bytes coherent (kernelFree s page) := by
  unfold Mm.kernelFree
  split
  · rename_i hk
    have hput : Inv ⟨kinds s.vmas, bytes, coherent⟩ { s with kernel := s.kernel.erase page } (page ::ₘ 0) := by
      refine { h.inv with counted := ?_ }
      have hheld : s.held = page ::ₘ ({ s with kernel := s.kernel.erase page } : Machine Proc).held := by
        have hperm : (s.kernel : Multiset Page) = page ::ₘ ↑(s.kernel.erase page) :=
          coe_eq_coe.mpr (perm_cons_erase hk)
        unfold held
        simp only [hperm, add_cons]
      have hcounted := h.inv.counted
      rw [hheld, add_cons, ← cons_add] at hcounted
      exact hcounted
    exact h.keep hput.pfree pfree_vmas
  · exact h

/-! ## Reclaim -/

/-- **`mmap_reclaim_file_page`.** -/
theorem MemInv.mmapReclaimFilePage (inode offset : Nat) (page : Page) :
    MemInv bytes coherent (mmapReclaimFilePage s inode offset page).1 := by
  unfold Mm.mmapReclaimFilePage
  split
  · exact h
  · exact h.keep (h.inv.unmapWhere _).1 (foldl_unmapPte _ s).2.1

omit h [Fintype Proc] [DecidableEq Proc] in
theorem reclaimBatch_fst (pages : List Page) : ∀ s : Machine Proc,
    (reclaimBatch s pages).1 = pages.foldl pfree s := by
  induction pages with
  | nil => intro s; rfl
  | cons page pages ih => intro s; exact ih _

omit h [Fintype Proc] in
/-- **The loop of `mmap_reclaim_anonymous`**: the pages of the batch are in hand. -/
theorem Inv.mmapReclaimAnonymousLoop (target : Nat) (l : List (Pte Proc)) :
    ∀ (s : Machine Proc) (batch : List Page) (reclaimed : Nat), Inv g s (↑batch + hand) → l.Nodup →
      (∀ pte ∈ l, pte ∈ s.ptes) →
      Inv g (mmapReclaimAnonymousLoop target s batch reclaimed l) hand ∧
      (mmapReclaimAnonymousLoop target s batch reclaimed l).vmas = s.vmas := by
  have hput : ∀ (s : Machine Proc) (batch : List Page), Inv g s (↑batch + hand) →
      Inv g (reclaimBatch s batch).1 hand ∧ Keeps s (reclaimBatch s batch).1 := by
    intro s batch h
    rw [reclaimBatch_fst]
    exact ⟨.pfreeAll batch s h, .pfreeAll batch s ⟨rfl, rfl, fun _ => rfl⟩⟩
  induction l with
  | nil =>
    intro s batch reclaimed h _ _
    exact ⟨(hput s batch h).1, (hput s batch h).2.vmas⟩
  | cons pte l ih =>
    intro s batch reclaimed h hnodup hsub
    obtain ⟨hnot, hnodup⟩ := nodup_cons.mp hnodup
    unfold Mm.mmapReclaimAnonymousLoop
    split
    · exact ⟨(hput s batch h).1, (hput s batch h).2.vmas⟩
    have hclear : Inv g (s.clearPte pte) (↑(pte.page :: batch) + hand) := by
      rw [← cons_coe, cons_add]
      exact h.clearPte (hsub pte mem_cons_self)
    have hrest : ∀ other ∈ l, other ∈ (s.clearPte pte).ptes := fun other ho =>
      (mem_erase_of_ne fun (he : other = pte) => hnot (he ▸ ho)).mpr
        (hsub other (mem_cons_of_mem _ ho))
    split
    · exact ih _ _ _ hclear hnodup hrest
    · obtain ⟨h1, h2⟩ := hput _ _ hclear
      obtain ⟨h3, h4⟩ := ih _ [] (reclaimed + (reclaimBatch (s.clearPte pte) (pte.page :: batch)).2)
        (by simpa using h1) hnodup (by rw [h2.ptes]; exact hrest)
      exact ⟨h3, h4.trans h2.vmas⟩

/-- **`mmap_reclaim_anonymous`.** -/
theorem MemInv.mmapReclaimAnonymous (proc : Proc) (target : Nat) :
    MemInv bytes coherent (mmapReclaimAnonymous s proc target) := by
  unfold Mm.mmapReclaimAnonymous
  split
  · exact h
  have hloop : ∀ l : List (Pte Proc), l.Nodup → (∀ pte ∈ l, pte ∈ s.ptes) →
      MemInv bytes coherent (mmapReclaimAnonymousLoop target s [] 0 l) := by
    intro l hnodup hsub
    obtain ⟨h1, h2⟩ := Inv.mmapReclaimAnonymousLoop target l s [] 0 (by simpa using h.inv) hnodup hsub
    exact h.keep h1 h2
  refine hloop _ ?_ fun pte hp => ?_
  · rw [(perm_insertionSort _ _).nodup_iff]
    exact h.inv.pteKeys.nodup.filter _
  · rw [(perm_insertionSort _ _).mem_iff] at hp
    exact (mem_filter.mp hp).1

end

end Caffeinix.Mm
