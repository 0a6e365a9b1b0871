import Caffeinix.Mm.Lookup
import Caffeinix.Mm.World

/-!
# `Mm.Leaves` — the invariant through the page tables

Mapping a page, copy on write, protecting and unmapping ranges, copying an address space and taking one down.
The four places that give write permission show here why they may: the page is new (`Mappable.fresh`), or its
count says that nobody else has it (`Mappable.sole`), or it is not a private page.
-/

namespace Caffeinix.Mm

open Nat List Vma Machine
open Multiset (add_cons cons_add mem_add)

variable {Proc : Type} [DecidableEq Proc] {g : Ghost Proc} {s s' : Machine Proc}
  {hand : Multiset Page} {page : Page} {pte : Pte Proc} {proc : Proc} {va : Nat} {perm : Perm} {d : Bool}

/-! ## Tables -/

variable {table : Table Proc} {area : VmArea}

omit [DecidableEq Proc] in
theorem Inv.addTable (h : Inv g s (table.page ::ₘ hand)) :
    Inv g { s with tables := table :: s.tables } hand := by
  refine { h with counted := ?_ }
  have hheld : ({ s with tables := table :: s.tables } : Machine Proc).held = table.page ::ₘ s.held := by
    unfold held
    simp only [refsOf_cons, add_cons, cons_add]
  rw [hheld, add_cons, ← cons_add]
  exact h.counted

section
variable (h : Inv g s hand)
include h

theorem Inv.removeTable (ht : table ∈ s.tables) :
    Inv g { s with tables := s.tables.erase table } (table.page ::ₘ hand) := by
  refine { h with counted := ?_ }
  have hheld : s.held = table.page ::ₘ ({ s with tables := s.tables.erase table } : Machine Proc).held := by
    unfold held
    simp only [refsOf_erase ht, cons_add, add_cons]
  have := h.counted
  rw [hheld, add_cons, ← cons_add] at this
  exact this

/-- A table that is there or is allocated. -/
theorem Inv.ensureTable (proc : Proc) (level index : Nat) :
    Inv g (ensureTable s proc level index).1 hand ∧ Allocs s (ensureTable s proc level index).1 := by
  unfold Mm.ensureTable
  split
  · exact ⟨h, .refl s⟩
  have fP := allocPages_allocs s true
  rcases h.allocPages true with ⟨hn, hinv⟩ | ⟨page, hp, _, _, hinv⟩
  · unfold Mm.pallocZero
    simp only [hn]
    exact ⟨hinv, fP⟩
  · unfold Mm.pallocZero
    simp only [hp]
    exact ⟨hinv.addTable, { fP with }⟩

/-- **`vm_walk`.** -/
theorem Inv.vmWalk (proc : Proc) (va : Nat) :
    Inv g (vmWalk s proc va).1 hand ∧ Allocs s (vmWalk s proc va).1 := by
  unfold Mm.vmWalk
  split
  · exact ⟨h, .refl s⟩
  obtain ⟨h1, f1⟩ := h.ensureTable proc 1 (va / 2 ^ 30)
  simp only
  split
  · obtain ⟨h2, f2⟩ := h1.ensureTable proc 0 (va / 2 ^ 21)
    exact ⟨h2, f1.trans f2⟩
  · exact ⟨h1, f1⟩

omit h in
/-- **`vm_map`** at an address without a leaf: the reference in hand is the leaf's, if there was memory. -/
theorem Inv.vmMap (h : Inv g s (page ::ₘ hand)) (hfree : ∀ other ∈ s.ptes, other.key ≠ (proc, va))
    (hm : Mappable g s.refs s.pins s.cache ⟨proc, va, page, perm, d⟩) :
    let r := vmMap s proc va page perm d
    (r.2 = false ∧ Inv g r.1 (page ::ₘ hand) ∧ Allocs s r.1) ∨
    (r.2 = true ∧ Inv g r.1 hand ∧ ∃ t, Allocs s t ∧ r.1 =
        { t with ptes := ⟨proc, va, page, perm, d⟩ :: s.ptes }) := by
  have hpos : s.refs page ≠ 0 := Nat.pos_iff_ne_zero.mp
    (h.counted.pos (mem_add.mpr (.inl (Multiset.mem_cons_self ..))))
  unfold Mm.vmMap
  obtain ⟨iW, fW⟩ := h.vmWalk proc va
  generalize Mm.vmWalk s proc va = W at *
  obtain ⟨sW, ok⟩ := W
  cases ok with
  | false => exact .inl ⟨rfl, iW, fW⟩
  | true =>
    have hfree : ∀ other ∈ sW.ptes, other.key ≠ (proc, va) := by rwa [fW.ptes]
    simp only [Bool.not_true, Bool.false_eq_true, if_false, findPte_eq_none.mpr hfree,
      Option.isSome_none]
    exact .inr ⟨trivial, iW.addPte hfree (hm.allocs fW hpos), sW, fW, by rw [fW.ptes]⟩

/-! ## Why a leaf may be writable -/

omit h [DecidableEq Proc] in
/-- A page that was just taken may be mapped with any permissions where no page of a file is shared. -/
theorem Mappable.fresh (h : Inv g s (page ::ₘ hand)) (hone : s.refs page = 1) (hva : pgsize ∣ va)
    (hcov : g.kind proc va ≠ none) (hfile : ∀ inode offset, g.kind proc va ≠ some (.sharedFile inode offset))
    (hcow : perm.cow = true → g.kind proc va = some .priv) :
    Mappable g s.refs s.pins s.cache ⟨proc, va, page, perm, d⟩ := by
  obtain ⟨_, hcache, _, hpins⟩ := h.fresh hone
  exact
    { aligned := hva
      covered := hcov
      exclusive := fun _ _ => by rw [hone, hpins]
      sharedFile := fun inode offset hk => absurd hk (hfile inode offset)
      sharedAnon := fun _ entry he => hcache entry he
      cow := hcow
      tracked := fun _ entry he hp => absurd hp (hcache entry he) }

omit [DecidableEq Proc] in
/-- A leaf whose page has one reference may get any permissions. -/
theorem Mappable.sole (hp : pte ∈ s.ptes) (hone : s.refs pte.page = 1)
    (hcow : perm.cow = true → g.kind pte.proc pte.va = some .priv) :
    Mappable g s.refs s.pins s.cache { pte with perm := perm } := by
  have hm := h.mapped pte hp
  have hrefs := h.refs_eq pte.page
  have hpos := pte_count_pos hp
  refine ⟨hm.aligned, hm.covered, fun _ _ => ?_, hm.sharedFile, hm.sharedAnon, hcow, fun _ entry he hpage => ?_⟩
  · show s.refs pte.page = 1 + s.pins.count pte.page
    omega
  · have := entry_count_pos he
    rw [show entry.page = pte.page from hpage] at this
    omega

/-! ## Copy on write -/

/-- **`vm_resolve_cow`.** -/
theorem Inv.vmResolveCow (proc : Proc) (va : Nat) :
    Inv g (vmResolveCow s proc va).1 hand ∧ (vmResolveCow s proc va).1.vmas = s.vmas := by
  unfold Mm.vmResolveCow
  split
  · exact ⟨h, rfl⟩
  rename_i pte hfind
  obtain ⟨hp, _⟩ := h.findPte_eq_some.mp hfind
  have hm := h.mapped pte hp
  split
  · exact ⟨h, rfl⟩
  rename_i hcow
  have hpriv := hm.cow (by simpa using hcow)
  rw [h.pallocRefcount_eq]
  split
  · exact ⟨h, rfl⟩
  split
  · -- nobody else has the page
    rename_i hone
    have hset : Inv g (s.setPte pte { pte with perm := { pte.perm with w := true, cow := false } }) hand :=
      h.setPte hp rfl rfl (.sole h hp hone fun hc => absurd hc (by simp))
    exact ⟨hset, rfl⟩
  have fP := allocPages_allocs s false
  rcases h.allocPages false with ⟨hn, hinv⟩ | ⟨page, hsome, _, hone, hinv⟩
  · simp only [hn]
    exact ⟨hinv, fP.vmas⟩
  -- the leaf changes over to a copy, and its old page is put
  simp only [hsome]
  generalize Mm.allocPages s false = P at *
  obtain ⟨sP, _⟩ := P
  have hcopy : Inv g (sP.setData page (sP.data pte.page)) (page ::ₘ hand) :=
    hinv.setData _ (hinv.fresh hone).2.1
  have hset : Inv g ((sP.setData page (sP.data pte.page)).setPte pte
      { pte with page := page, perm := { pte.perm with w := true, cow := false } })
      (pte.page ::ₘ hand) :=
    hcopy.setPte (fP.ptes ▸ hp) rfl (Multiset.cons_swap ..)
      (.fresh hcopy hone hm.aligned hm.covered
        (fun inode offset hk => absurd (hpriv.symm.trans hk) (by simp))
        fun hc => absurd hc (by simp))
  exact ⟨hset.pfree, pfree_vmas.trans fP.vmas⟩

/-! ## Protection -/

omit [DecidableEq Proc] in
/-- Leaves change in place. -/
theorem Inv.mapPtes {f : Pte Proc → Pte Proc}
    (hf : ∀ pte ∈ s.ptes, (f pte).key = pte.key ∧ (f pte).page = pte.page ∧
      Mappable g s.refs s.pins s.cache (f pte)) : Inv g { s with ptes := s.ptes.map f } hand := by
  refine { h with
    counted := ?_
    pteKeys := h.pteKeys.map fun pte hp => (hf pte hp).1
    mapped := fun other ho => ?_ }
  · have hheld : ({ s with ptes := s.ptes.map f } : Machine Proc).held = s.held := by
      unfold held
      simp only [refsOf_map fun pte hp => (hf pte hp).2.1]
    rw [hheld]
    exact h.counted
  · obtain ⟨pte, hp, rfl⟩ := mem_map.mp ho
    exact (hf pte hp).2.2

/-- The kinds are those of the VMA sets. -/
def Knows (g : Ghost Proc) (s : Machine Proc) : Prop :=
  ∀ proc x, pgsize ∣ x → g.kind proc x = kinds s.vmas proc x

omit h [DecidableEq Proc] in
/-- The kind of a page in the area that `vma_find` returns. -/
theorem Knows.find [Fintype Proc] {address : Nat} (hk : Knows g s) (hw : WorldOk s.vmas)
    (hf : vmaFind address (s.vmas.sets proc) = some area) :
    g.kind proc (pgrounddown address) = some (pageKind (area.page (pgrounddown address))) :=
  (hk proc _ pgrounddown_dvd).trans (hw.find hf).2.2.2

/-- **One leaf of `vm_protect_user_range`.** -/
theorem Inv.vmProtectPte [Fintype Proc] (hw : WorldOk s.vmas) (hk : Knows g s) (hp : pte ∈ s.ptes)
    (hf : vmaFind pte.va (s.vmas.sets pte.proc) = some area) (permissions : Perm) :
    Mappable g s.refs s.pins s.cache (vmProtectPte s permissions area pte) := by
  have hm := h.mapped pte hp
  obtain ⟨hwf, _, hattr, _⟩ := hw.find hf
  have hkind := hk.find hw hf
  rw [pgrounddown_of_dvd hm.aligned] at hattr hkind
  -- a leaf that is not writable, and copy-on-write only if the area is private
  have hweak : ∀ perm : Perm, perm.w = false → (perm.cow = true → areaPrivate area = true) →
      Mappable g s.refs s.pins s.cache { pte with perm := perm } := fun perm hn hcow =>
    { hm with
      exclusive := fun hw => absurd hw (by simp [hn])
      cow := fun hc => hkind.trans (by rw [pageKind_private (hcow hc)])
      tracked := fun hw => absurd hw (by simp [hn]) }
  unfold Mm.vmProtectPte
  split
  · split
    · rename_i hshared
      exact hweak _ rfl fun _ => (Bool.and_eq_true_iff.mp hshared).1
    rename_i hsole
    split
    · exact hweak _ rfl fun hc => absurd hc (by simp)
    rename_i hfile
    cases hpriv : areaPrivate area with
    | true =>
      -- a private page with one reference
      rw [hpriv, h.pallocRefcount_eq] at hsole
      simp only [Bool.true_and, gt_iff_lt, decide_eq_true_eq, not_lt] at hsole
      have hpos := h.counted.pos (mem_add.mpr (.inr
        (held_of_pte hp ▸ Multiset.mem_cons_self ..)))
      exact .sole h hp (le_antisymm hsole hpos) fun hc => absurd hc (by simp)
    | false =>
      have hne : g.kind pte.proc pte.va ≠ some .priv := fun hc => by
        rw [hkind] at hc
        cases hfo : area.file with
        | none => rw [pageKind_anon hpriv hfo] at hc; exact absurd hc (by simp)
        | some => rw [pageKind_file hwf hpriv hfo] at hc; exact absurd hc (by simp)
      refine { hm with
        exclusive := fun _ hk => absurd hk hne
        cow := fun hc => absurd hc (by simp)
        tracked := fun _ entry he hpage => ?_ }
      cases hfo : area.file with
      | none =>
        -- shared memory that is not a file's is never in the cache
        rw [pageKind_anon hpriv hfo] at hkind
        exact absurd hpage (hm.sharedAnon hkind entry he)
      | some =>
        have hback : area.origin = .fileBacked := hwf.file_iff.mp (by rw [hfo]; rfl)
        simp only [hback, hattr.shared.mpr hpriv, decide_true, Bool.and_self, Bool.true_and,
          Bool.not_eq_true', Bool.not_eq_false] at hfile
        exact hm.tracked hfile entry he hpage
  · rename_i hro
    exact hweak _ (by simpa using hro) fun hc => (Bool.and_eq_true_iff.mp hc).2

/-- **`vm_protect_user_range`** with permissions that a page can have: it succeeds. -/
theorem Inv.vmProtectUserRange [Fintype Proc] {start finish : Nat} {permissions : Perm} (hw : WorldOk s.vmas)
    (hk : Knows g s)
    (proc : Proc) (hlt : start < finish) (hs : pgsize ∣ start) (hf : pgsize ∣ finish) (hmax : finish ≤ maxva)
    (hsome : (permissions.r || permissions.w || permissions.x) = true)
    (hwr : (permissions.w && !permissions.r) = false) :
    let r := vmProtectUserRange s proc start finish permissions
    r.2 = true ∧ Inv g r.1 hand ∧ r.1.vmas = s.vmas := by
  have hfind : ∀ pte ∈ s.ptes, ∃ area, vmaFind pte.va (s.vmas.sets pte.proc) = some area := by
    intro pte hp
    have hm := h.mapped pte hp
    obtain ⟨base, hinv⟩ := hw.inv
    have hcov := hm.covered
    rw [hk _ _ hm.aligned] at hcov
    unfold kinds at hcov
    rw [← pgrounddown_of_dvd hm.aligned, ← vmaFind_pages hinv] at hcov
    cases hv : vmaFind pte.va (s.vmas.sets pte.proc) with
    | none => exact absurd (by rw [hv]; rfl) hcov
    | some area => exact ⟨area, rfl⟩
  unfold Mm.vmProtectUserRange
  rw [if_neg (by simp [hlt, mod_eq_zero_of_dvd hs, mod_eq_zero_of_dvd hf, hmax, hsome, hwr])]
  rw [if_neg]
  · refine ⟨rfl, h.mapPtes fun pte hp => ?_, rfl⟩
    split
    · rename_i hin
      obtain ⟨area, harea⟩ := hfind pte hp
      rw [hin.1] at harea
      simp only [harea]
      rw [← hin.1] at harea
      exact ⟨rfl, rfl, h.vmProtectPte hw hk hp harea permissions⟩
    · exact ⟨rfl, rfl, h.mapped pte hp⟩
  · rw [any_eq_true]
    rintro ⟨pte, hp, hnone⟩
    obtain ⟨hp, hin⟩ := mem_filter.mp hp
    obtain ⟨area, harea⟩ := hfind pte hp
    rw [(decide_eq_true_iff.mp hin).1] at harea
    rw [harea] at hnone
    exact absurd hnone (by simp)

/-! ## Ranges and whole address spaces -/

/-- **`vm_unmap_range`**: the leaves of the range are gone. -/
theorem Inv.vmUnmapRange (proc : Proc) {size : Nat} (hva : pgsize ∣ va) (hsize : pgsize ∣ size) :
    Inv g (vmUnmapRange s proc va size) hand ∧ (vmUnmapRange s proc va size).vmas = s.vmas ∧
    ∀ pte ∈ (vmUnmapRange s proc va size).ptes,
      pte ∈ s.ptes ∧ ¬ (pte.proc = proc ∧ va ≤ pte.va ∧ pte.va < va + size) := by
  unfold Mm.vmUnmapRange
  split
  · rename_i hz
    exact ⟨h, rfl, fun pte hp => ⟨hp, fun hin => by omega⟩⟩
  have hend : pgroundup (va + size) = va + size := by
    obtain ⟨n, hn⟩ := Nat.dvd_add hva hsize
    unfold pgroundup pgrounddown
    rw [hn]
    have hmod : (pgsize * n + pgsize - 1) % pgsize = pgsize - 1 := by
      rw [Nat.add_sub_assoc pgsize_pos, Nat.mul_add_mod]
      decide
    rw [hmod]
    have := pgsize_pos
    omega
  rw [pgrounddown_of_dvd hva, hend]
  obtain ⟨h1, h2⟩ := h.unmapWhere fun pte => pte.proc = proc ∧ va ≤ pte.va ∧ pte.va < va + size
  refine ⟨h1, (foldl_unmapPte _ s).2.1, fun pte hp => ?_⟩
  obtain ⟨hmem, hnot⟩ := (h2 pte).mp hp
  exact ⟨hmem, of_decide_eq_false hnot⟩

/-- **`vm_free_user`**: no leaf of the address space is left. -/
theorem Inv.vmFreeUser (proc : Proc) :
    Inv g (vmFreeUser s proc) hand ∧ (vmFreeUser s proc).vmas = s.vmas ∧
    ∀ pte ∈ (vmFreeUser s proc).ptes, pte ∈ s.ptes ∧ pte.proc ≠ proc := by
  obtain ⟨h1, h2⟩ := h.unmapWhere fun pte => pte.proc = proc
  have hvmas := (foldl_unmapPte (s.ptes.filter fun pte => decide (pte.proc = proc)) s).2.1
  have hptes : ∀ pte ∈ ((s.ptes.filter fun pte => decide (pte.proc = proc)).foldl Mm.unmapPte s).ptes,
      pte ∈ s.ptes ∧ pte.proc ≠ proc := fun pte hp =>
    ⟨((h2 pte).mp hp).1, of_decide_eq_false ((h2 pte).mp hp).2⟩
  unfold Mm.vmFreeUser
  simp only
  split
  · exact ⟨{ h1 with calm := .inr rfl }, hvmas, hptes⟩
  · exact ⟨h1, hvmas, hptes⟩

omit h in
/-- Tables go, one after the other. -/
theorem Inv.freeTables {l : List (Table Proc)} : ∀ s : Machine Proc, Inv g s hand → l.Subperm s.tables →
    Inv g (l.foldl (fun s table => Mm.pfree { s with tables := s.tables.erase table } table.page) s) hand ∧
    Keeps s (l.foldl (fun s table => Mm.pfree { s with tables := s.tables.erase table } table.page) s) := by
  induction l with
  | nil => intro s h _; exact ⟨h, ⟨rfl, rfl, fun _ => rfl⟩⟩
  | cons table l ih =>
    intro s h hsub
    have hmem : table ∈ s.tables := hsub.subset mem_cons_self
    have hrest : l.Subperm (s.tables.erase table) := by
      have := hsub.erase table
      rwa [erase_cons_head] at this
    obtain ⟨h1, h2⟩ := ih _ (h.removeTable hmem).pfree (by rw [pfree_tables]; exact hrest)
    have hput : Keeps s (Mm.pfree { s with tables := s.tables.erase table } table.page) :=
      Keeps.pfree ⟨rfl, rfl, fun _ => rfl⟩
    exact ⟨h1, hput.trans h2⟩

/-- **`pagedir_free`.** -/
theorem Inv.pagedirFree (proc : Proc) : Inv g (pagedirFree s proc) hand ∧ Keeps s (pagedirFree s proc) :=
  Inv.freeTables s h filter_sublist.subperm

/-- **`process_pagedir`**; without memory everything goes back. -/
theorem Inv.processPagedir (proc : Proc) :
    Inv g (processPagedir s proc).1 hand ∧ Keeps s (processPagedir s proc).1 := by
  unfold Mm.processPagedir Mm.pallocZero
  have fP := allocPages_allocs s true
  rcases h.allocPages true with ⟨hn, hinv⟩ | ⟨page, hp, _, _, hinv⟩
  · simp only [hn]
    exact ⟨hinv, fP.keeps⟩
  simp only [hp]
  generalize Mm.allocPages s true = P at *
  obtain ⟨sP, _⟩ := P
  have hroot : Inv g { sP with tables := ⟨proc, 2, 0, page⟩ :: sP.tables } hand := hinv.addTable
  have kroot : Keeps s { sP with tables := ⟨proc, 2, 0, page⟩ :: sP.tables } := ⟨fP.ptes, fP.vmas, fP.keeps.size⟩
  generalize ({ sP with tables := ⟨proc, 2, 0, page⟩ :: sP.tables } : Machine Proc) = s0 at *
  obtain ⟨h1, f1⟩ := hroot.vmWalk proc trampoline
  have k1 := kroot.trans f1.keeps
  split
  · obtain ⟨hf, kf⟩ := h1.pagedirFree proc
    exact ⟨hf, k1.trans kf⟩
  obtain ⟨h2, f2⟩ := h1.vmWalk proc userStackTop
  have k2 := k1.trans f2.keeps
  split
  · obtain ⟨hf, kf⟩ := h2.pagedirFree proc
    exact ⟨hf, k2.trans kf⟩
  obtain ⟨h3, f3⟩ := h2.vmWalk proc (trapframe 0)
  have k3 := k2.trans f3.keeps
  split
  · obtain ⟨hf, kf⟩ := h3.pagedirFree proc
    exact ⟨hf, k3.trans kf⟩
  · exact ⟨{ h3 with }, ⟨k3.ptes, k3.vmas, k3.size⟩⟩

end

/-! ## Copying an address space -/

omit [DecidableEq Proc] in
/-- `palloc_get` looks only at the counters. -/
theorem pallocGet_congr (hr : s'.refs = s.refs) (ha : s'.allocated = s.allocated) (page : Page) :
    (pallocGet s' page).2 = (pallocGet s page).2 := by
  unfold pallocGet
  rw [hr, ha]
  split <;> rfl

omit [DecidableEq Proc] in
theorem pallocGet_fst : (pallocGet s page).1 =
    if (pallocGet s page).2 then { s with refs := Function.update s.refs page (s.refs page + 1) } else s := by
  unfold pallocGet
  split <;> rfl

/-- The permissions that both leaves have after a copy. -/
def copiedPerm (area : VmArea) (perm : Perm) : Perm :=
  if areaPrivate area && perm.w then { perm with w := false, cow := true } else perm

theorem copiedPerm_w {perm : Perm} (h : (copiedPerm area perm).w = true) :
    areaPrivate area = false ∧ copiedPerm area perm = perm := by
  unfold copiedPerm at h ⊢
  split at h
  · cases h
  · rename_i hc
    rw [if_neg hc]
    rw [h, Bool.and_true] at hc
    exact ⟨Bool.eq_false_iff.mpr hc, rfl⟩

omit [DecidableEq Proc] in
/-- The two leaves may have these permissions. -/
theorem Mappable.copied {refs : Page → Nat} (hm : Mappable g refs s.pins s.cache pte)
    (hpriv : g.kind pte.proc pte.va = some .priv ↔ areaPrivate area = true) (refs' : Page → Nat) {proc' : Proc}
    (hkind : g.kind proc' pte.va = g.kind pte.proc pte.va) :
    Mappable g refs' s.pins s.cache ⟨proc', pte.va, pte.page, copiedPerm area pte.perm, pte.d⟩ where
  aligned := hm.aligned
  covered := fun hc => hm.covered (hkind.symm.trans hc)
  exclusive := fun hpw hk => absurd (hpriv.mp (hkind.symm.trans hk)) (by simp [(copiedPerm_w hpw).1])
  sharedFile := fun inode offset hk => hm.sharedFile inode offset (hkind.symm.trans hk)
  sharedAnon := fun hk => hm.sharedAnon (hkind.symm.trans hk)
  cow := fun hc => hkind.trans (by
    unfold copiedPerm at hc
    split at hc
    · rename_i hpw
      exact hpriv.mpr (Bool.and_eq_true_iff.mp hpw).1
    · exact hm.cow hc)
  tracked := fun hpw => hm.tracked ((copiedPerm_w hpw).2 ▸ hpw)

/-- The parent's leaf gets its permissions. -/
def restrictPte (s : Machine Proc) (pte : Pte Proc) (area : VmArea) : Machine Proc :=
  if areaPrivate area && pte.perm.w then s.setPte pte { pte with perm := copiedPerm area pte.perm } else s

theorem Inv.restricted (h : Inv g s hand) (hp : pte ∈ s.ptes)
    (hpriv : g.kind pte.proc pte.va = some .priv ↔ areaPrivate area = true) :
    let s' := restrictPte s pte area
    Inv g s' hand ∧ s'.refs = s.refs ∧ s'.allocated = s.allocated ∧ s'.pins = s.pins ∧ s'.cache = s.cache ∧
    s'.vmas = s.vmas := by
  unfold restrictPte
  split_ifs
  · exact ⟨h.setPte hp rfl rfl ((h.mapped pte hp).copied hpriv _ rfl), rfl, rfl, rfl, rfl, rfl⟩
  · exact ⟨h, rfl, rfl, rfl, rfl, rfl⟩

theorem Inv.restricted_ptes (h : Inv g s hand) {q : Pte Proc} (hq : q ∈ (restrictPte s pte area).ptes) :
    q = { pte with perm := copiedPerm area pte.perm } ∨ q ≠ pte ∧ q ∈ s.ptes := by
  unfold restrictPte at hq
  split_ifs at hq with hc
  · rcases mem_cons.mp hq with rfl | hq
    · exact .inl rfl
    · exact .inr (h.pteKeys.mem_erase.mp hq)
  · by_cases hqp : q = pte
    · rw [show copiedPerm area pte.perm = pte.perm from if_neg hc]
      exact .inl hqp
    · exact .inr ⟨hqp, hq⟩

section copy

variable [Fintype Proc] {old new : Proc} (hw : WorldOk s.vmas) (hne : old ≠ new)
  (hold : ∀ x, pgsize ∣ x → g.kind old x = kinds s.vmas old x)
  (hnew : ∀ x, g.kind new x = g.kind old x)

include hw hne hold hnew

/-- **One leaf of `vm_copy_walk`**: the parent's leaf loses write permission before its page is shared. -/
theorem Inv.vmCopyPte (h : Inv g s hand) (hfree : ∀ pte ∈ s.ptes, pte.key ≠ (new, va)) :
    Inv g (vmCopyPte s old new va).1 hand ∧ (vmCopyPte s old new va).1.vmas = s.vmas ∧
    ∀ pte ∈ (vmCopyPte s old new va).1.ptes, pte.proc = new → pte.va = va ∨ pte ∈ s.ptes := by
  unfold Mm.vmCopyPte
  split
  · exact ⟨h, rfl, fun pte hp _ => .inr hp⟩
  rename_i pte hfind
  obtain ⟨hp, hkey⟩ := h.findPte_eq_some.mp hfind
  obtain ⟨hproc, hva⟩ := Prod.mk_inj.mp hkey
  have hm := h.mapped pte hp
  split
  · exact ⟨h, rfl, fun pte hp _ => .inr hp⟩
  rename_i area harea
  have hpriv : g.kind pte.proc pte.va = some .priv ↔ areaPrivate area = true := by
    obtain ⟨hwf, -, -, hpage⟩ := hw.find harea
    rw [← hva, pgrounddown_of_dvd hm.aligned] at hpage
    rw [hproc, hold _ hm.aligned, hpage, Option.some_inj, pageKind_eq_priv hwf]
  generalize hperm : (if areaPrivate area && pte.perm.w then { pte.perm with w := false, cow := true }
    else pte.perm) = perm
  obtain rfl : copiedPerm area pte.perm = perm := hperm
  -- first the parent's leaf, then the reference: the two statements commute
  obtain ⟨h0, hrefs, hallocated, hpins, hcache, hvmas⟩ := h.restricted hp hpriv
  have hshare : ∀ q ∈ (restrictPte s pte area).ptes, q.perm.w = true → g.kind q.proc q.va = some .priv →
      q.page ≠ pte.page := by
    intro q hq hqw hqk hpage
    rcases h.restricted_ptes hq with rfl | ⟨hqne, hq⟩
    · exact absurd (hpriv.mp hqk) (by simp [(copiedPerm_w hqw).1])
    · exact hqne ((h.exclusive_only hq hqw hqk).2.1 pte hp hpage.symm).symm
  have hchild : ∀ q ∈ (restrictPte s pte area).ptes, q.proc = new → q ∈ s.ptes := by
    intro q hq hqn
    rcases h.restricted_ptes hq with rfl | ⟨_, hq⟩
    · exact absurd (hproc.symm.trans hqn) hne
    · exact hq
  have hget := pallocGet_congr hrefs hallocated pte.page
  rcases h0.pallocGet hshare with hf | ⟨s1, hok, _, hs1, hinv⟩
  · rw [hf] at hget
    simp only [pallocGet_fst, ← hget]
    exact ⟨h, rfl, fun q hq _ => .inr hq⟩
  rw [hok] at hget
  have hstate : (if (areaPrivate area && pte.perm.w) = true then
      (Mm.pallocGet s pte.page).1.setPte pte { pte with perm := copiedPerm area pte.perm }
      else (Mm.pallocGet s pte.page).1) = s1 := by
    rw [hs1, pallocGet_fst, ← hget, if_pos rfl]
    unfold restrictPte
    split_ifs <;> rfl
  simp only [← hget, Bool.not_true, Bool.false_eq_true, if_false, hstate]
  have hptes1 : s1.ptes = (restrictPte s pte area).ptes := by rw [hs1]
  have hvmas1 : s1.vmas = s.vmas := by rw [hs1]; exact hvmas
  have hfree1 : ∀ q ∈ s1.ptes, q.key ≠ (new, va) := by
    intro q hq hk
    rw [hptes1] at hq
    exact hfree q (hchild q hq (Prod.mk_inj.mp hk).1) hk
  have hmap1 : Mappable g s1.refs s1.pins s1.cache ⟨new, va, pte.page, copiedPerm area pte.perm, pte.d⟩ := by
    have hmap := hm.copied hpriv s1.refs (show g.kind new pte.va = _ by rw [hnew, hproc])
    rwa [hva, ← hpins, ← hcache, show (restrictPte s pte area).pins = s1.pins by rw [hs1],
      show (restrictPte s pte area).cache = s1.cache by rw [hs1]] at hmap
  rcases hinv.vmMap hfree1 hmap1 with ⟨hr, hi, hfr⟩ | ⟨hr, hi, t, hfr, ht⟩
  · simp only [hr, Bool.false_eq_true, if_false]
    refine ⟨hi.pfree, pfree_vmas.trans (hfr.vmas.trans hvmas1), fun q hq hqn => .inr ?_⟩
    rw [pfree_ptes, hfr.ptes, hptes1] at hq
    exact hchild q hq hqn
  simp only [hr, if_true]
  rw [ht] at hi ⊢
  refine ⟨hi, hfr.vmas.trans hvmas1, fun q hq hqn => ?_⟩
  rw [hptes1] at hq
  rcases mem_cons.mp hq with rfl | hq
  · exact .inl rfl
  · exact .inr (hchild q hq hqn)

omit hw hold in
/-- **`vm_copy_walk`**, over addresses where the child has no leaf yet. -/
theorem Inv.vmCopyWalk (l : List Nat) : ∀ s : Machine Proc, WorldOk s.vmas →
    (∀ x, pgsize ∣ x → g.kind old x = kinds s.vmas old x) → Inv g s hand → l.Nodup →
    (∀ va ∈ l, ∀ pte ∈ s.ptes, pte.key ≠ (new, va)) →
    Inv g (vmCopyWalk s old new l).1 hand ∧ (vmCopyWalk s old new l).1.vmas = s.vmas := by
  induction l with
  | nil => intro s _ _ h _ _; exact ⟨h, rfl⟩
  | cons va l ih =>
    intro s hw hold h hnodup hfree
    obtain ⟨hnot, hnodup⟩ := nodup_cons.mp hnodup
    obtain ⟨h1, h2, h3⟩ := h.vmCopyPte hw hne hold hnew (hfree va mem_cons_self)
    unfold Mm.vmCopyWalk
    simp only
    split
    · obtain ⟨h4, h5⟩ := ih _ (h2 ▸ hw) (h2 ▸ hold) h1 hnodup fun va' hva' pte hp hk => by
        rcases h3 pte hp (Prod.mk_inj.mp hk).1 with hv | hp
        · exact hnot (hv ▸ (Prod.mk_inj.mp hk).2 ▸ hva')
        · exact hfree va' (mem_cons_of_mem _ hva') pte hp hk
      exact ⟨h4, h5.trans h2⟩
    · exact ⟨h1, h2⟩

/-- **`vm_copy`** to an address space without leaves; if it fails, there are none again. -/
theorem Inv.vmCopy (h : Inv g s hand) (hempty : ∀ pte ∈ s.ptes, pte.proc ≠ new) :
    Inv g (vmCopy s old new).1 hand ∧ (vmCopy s old new).1.vmas = s.vmas ∧
    ((vmCopy s old new).2 = false → ∀ pte ∈ (vmCopy s old new).1.ptes, pte.proc ≠ new) := by
  have hnodup : (s.leafAddresses old).Nodup := by
    unfold leafAddresses
    rw [(perm_insertionSort _ _).nodup_iff]
    refine List.Nodup.map_on (fun x hx y hy hxy => ?_) (h.pteKeys.nodup.filter _)
    obtain ⟨hx, hxp⟩ := mem_filter.mp hx
    obtain ⟨hy, hyp⟩ := mem_filter.mp hy
    exact h.pteKeys.inj hx hy
      (Prod.ext ((of_decide_eq_true hxp).trans (of_decide_eq_true hyp).symm) hxy)
  obtain ⟨h1, h2⟩ := Inv.vmCopyWalk hne hnew (s.leafAddresses old) s hw hold h hnodup
    fun va _ pte hp hk => hempty pte hp (Prod.mk_inj.mp hk).1
  unfold Mm.vmCopy
  simp only
  split
  · rename_i hok
    exact ⟨h1, h2, fun hr => absurd (hok.symm.trans hr) (by decide)⟩
  · obtain ⟨h3, h4, h5⟩ := h1.vmFreeUser new
    exact ⟨h3, h4.trans h2, fun _ pte hp => (h5 pte hp).2⟩

end copy

end Caffeinix.Mm
