import Caffeinix.Mm.Leaves

/-!
# `Mm.Fault` — the invariant through a page fault

`mmap_handle_fault` finds a page for the address (`Found`), marks it if it is the page cache's, and maps it;
or it changes a leaf that is there. Each part says with which permissions its page may be mapped.
-/

namespace Caffeinix.Mm

open List Vma Option FaultResult
open Multiset (add_cons cons_add mem_add)

variable {Proc : Type} {g : Ghost Proc} {s s' : Machine Proc}
  {hand : Multiset Page} {page : Page} {proc : Proc} {va : Nat} {area : VmArea} {file : VfsFile}

/-! ## Shared anonymous mappings -/

variable {a : AnonPage} {address : Nat} {r : Machine Proc × Except FaultResult FaultPage} {entry : CacheEntry}
  {p : FaultPage}

theorem Inv.addAnon (h : Inv g s (a.page ::ₘ hand)) (hc : ∀ entry ∈ s.cache, entry.page ≠ a.page) :
    Inv g { s with anon := a :: s.anon } hand := by
  refine { h with counted := ?_, anonApart := fun b hb => ?_ }
  · have hheld : ({ s with anon := a :: s.anon } : Machine Proc).held = a.page ::ₘ s.held := by
      unfold Machine.held
      simp only [refsOf_cons, add_cons, cons_add]
    rw [hheld, add_cons, ← cons_add]
    exact h.counted
  · rcases mem_cons.mp hb with rfl | hb
    · exact hc
    · exact h.anonApart b hb

theorem Inv.removeAnon (h : Inv g s hand) (ha : a ∈ s.anon) :
    Inv g { s with anon := s.anon.erase a } (a.page ::ₘ hand) := by
  refine { h with
    counted := ?_
    anonApart := fun b hb => h.anonApart b (mem_of_mem_erase hb) }
  have hheld : s.held = a.page ::ₘ ({ s with anon := s.anon.erase a } : Machine Proc).held := by
    unfold Machine.held
    simp only [refsOf_erase ha, cons_add, add_cons]
  have := h.counted
  rw [hheld, add_cons, ← cons_add] at this
  exact this

/-- Pages of mappings go, one after the other. -/
theorem Inv.anonReleaseAll [DecidableEq Proc] {l : List AnonPage} :
    ∀ s : Machine Proc, Inv g s hand → l.Subperm s.anon →
    Inv g (l.foldl anonRelease s) hand ∧ Keeps s (l.foldl anonRelease s) := by
  induction l with
  | nil => intro s h _; exact ⟨h, ⟨rfl, rfl, fun _ => rfl⟩⟩
  | cons a l ih =>
    intro s h hsub
    have hmem : a ∈ s.anon := hsub.subset mem_cons_self
    have hrest : l.Subperm (s.anon.erase a) := by
      have := hsub.erase a
      rwa [erase_cons_head] at this
    obtain ⟨h1, h2⟩ := ih (anonRelease s a) (h.removeAnon hmem).pfree
      (by unfold anonRelease; rw [pfree_anon]; exact hrest)
    have hput : Keeps s (anonRelease s a) := .pfree ⟨rfl, rfl, fun _ => rfl⟩
    exact ⟨h1, hput.trans h2⟩

section
variable (h : Inv g s hand)
include h

/-- **`anon_mapping_put`.** -/
theorem Inv.anonMappingPut [DecidableEq Proc] : Inv g (anonMappingPut s) hand ∧ Keeps s (anonMappingPut s) :=
  Inv.anonReleaseAll s h filter_sublist.subperm

/-- A reference to a page of a mapping. -/
theorem Inv.getAnon [DecidableEq Proc] (ha : a ∈ s.anon) : Mm.pallocGet s a.page = (s, false) ∨
    ∃ s', Mm.pallocGet s a.page = (s', true) ∧ s.refs a.page ≠ 0 ∧
      s' = { s with refs := Function.update s.refs a.page (s.refs a.page + 1) } ∧
      Inv g s' (a.page ::ₘ hand) :=
  h.pallocGet fun _ hp hw hk => Ne.symm ((h.exclusive_only hp hw hk).2.2.2 a ha)

/-- **`anon_mapping_get_page`**: the page is not one of the page cache. -/
theorem Inv.anonMappingGetPage [DecidableEq Proc] (mapping : VmaBacking) (offset : Nat) :
    let r := anonMappingGetPage s mapping offset
    Keeps s r.1 ∧ ((r.2 = none ∧ Inv g r.1 hand) ∨
    ∃ page, r.2 = some page ∧ Inv g r.1 (page ::ₘ hand) ∧ ∀ entry ∈ r.1.cache, entry.page ≠ page) := by
  unfold Mm.anonMappingGetPage
  split
  · exact ⟨⟨rfl, rfl, fun _ => rfl⟩, .inl ⟨rfl, h⟩⟩
  split
  · rename_i a hfind
    have ha : a ∈ s.anon := mem_of_find?_eq_some hfind
    rcases h.getAnon ha with hf | ⟨s', hok, _, hs', hinv⟩
    · simp only [hf, Bool.false_eq_true, if_false]
      exact ⟨⟨rfl, rfl, fun _ => rfl⟩, .inl ⟨trivial, h⟩⟩
    · simp only [hok, if_true]
      refine ⟨by rw [hs']; exact ⟨rfl, rfl, fun _ => rfl⟩, .inr ⟨a.page, rfl, hinv, ?_⟩⟩
      rw [hs']
      exact h.anonApart a ha
  · obtain ⟨fF, tF⟩ := h.allocEntryPage
    generalize Mm.allocEntryPage s = F at *
    obtain ⟨sF, first⟩ := F
    rcases tF with ⟨rfl, iF⟩ | ⟨page, rfl, _, iF, hone⟩
    · exact ⟨fF.keeps, .inl ⟨rfl, iF⟩⟩
    have hcache := (iF.fresh hone).2.1
    have iA : Inv g { sF with anon := ⟨mapping, offset, page⟩ :: sF.anon } hand :=
      Inv.addAnon iF hcache
    -- there is only one reference, so there can be one more
    have hget := iA.pallocGet_of_one hone
    rcases iA.getAnon mem_cons_self with hf | ⟨s', hok, _, hs', hinv⟩
    · rw [hf] at hget
      exact absurd hget (by simp)
    · simp only [hok, if_true]
      exact ⟨by rw [hs']; exact ⟨fF.ptes, fF.vmas, fF.keeps.size⟩, .inr ⟨page, rfl, hinv, by rw [hs']; exact hcache⟩⟩

end

/-! ## The page for a fault -/

/-- The page at `va` is in this area. -/
structure PageOf (g : Ghost Proc) (proc : Proc) (va : Nat) (area : VmArea) : Prop where
  aligned : pgsize ∣ va
  wf : AreaWf area
  start : area.start ≤ va
  attr : AttrOk (area.page va)
  kind : g.kind proc va = some (pageKind (area.page va))

theorem Knows.pageOf [Fintype Proc] (hk : Knows g s) (hw : WorldOk s.vmas)
    (hf : vmaFind address (s.vmas.sets proc) = some area) : PageOf g proc (pgrounddown address) area :=
  ⟨pgrounddown_dvd, (hw.find hf).1, (hw.find hf).2.1.1, (hw.find hf).2.2.1, hk.find hw hf⟩

section
variable (h : PageOf g proc va area)
include h

theorem PageOf.covered : g.kind proc va ≠ none := by
  rw [h.kind]
  simp

/-- A page of a private area. -/
theorem PageOf.kind_priv : g.kind proc va = some .priv ↔ areaPrivate area = true := by
  rw [h.kind, Option.some_inj, pageKind_eq_priv h.wf]

/-- A shared page of a file. -/
theorem PageOf.kind_file (hn : areaPrivate area = false) (hf : area.file = some file) :
    g.kind proc va = some (.sharedFile file.inode (area.offset + va - area.start)) := by
  have := h.start
  rw [h.kind, pageKind_file h.wf hn hf, Nat.add_sub_assoc this]

end

/-- The page has the bytes of the file for this address of the area; of a segment of a program, those that
    come from the file. -/
def Holds (g : Ghost Proc) (s : Machine Proc) (area : VmArea) (va : Nat) (page : Page) : Prop :=
  ∀ file, area.file = some file → ∀ i < pgsize,
    (area.usage = .elf → va - area.start + i < area.fileLength) →
    area.offset + va - area.start + i < (s.files file.inode).size →
    s.data page i = g.bytes file.inode (area.offset + va - area.start + i)

/-- What `mmap_handle_fault` knows about the page it has: a cached one is the one for the place in the file,
    another one may be mapped with any permissions. -/
def Found (g : Ghost Proc) (s : Machine Proc) (hand : Multiset Page) (proc : Proc) (va : Nat)
    (area : VmArea) (r : Machine Proc × Except FaultResult FaultPage) : Prop :=
  Keeps s r.1 ∧
  match r.2 with
  | .error result => Inv g r.1 hand ∧ result ≠ .ok
  | .ok p => Inv g r.1 (p.page ::ₘ hand) ∧
      if p.cached then
        ∃ file, area.file = some file ∧ ∃ entry ∈ r.1.cache,
          entry.key = (file.inode, area.offset + va - area.start) ∧ entry.page = p.page
      else (g.coherent → Holds g r.1 area va p.page) ∧
        ∀ perm d, perm.cow = false → Mappable g r.1.refs r.1.pins r.1.cache ⟨proc, va, p.page, perm, d⟩

theorem Found.after (h : Found g s' hand proc va area r) (hk : Keeps s s') :
    Found g s hand proc va area r := ⟨hk.trans h.1, h.2⟩

/-- A new page for an address that is not a shared page of a file. -/
theorem Found.fresh (hkeep : Keeps s s') (h : Inv g s' (page ::ₘ hand)) (hone : s'.refs page = 1)
    (ha : PageOf g proc va area) (hn : areaPrivate area = true ∨ area.file = none)
    (hdata : g.coherent → Holds g s' area va page) : Found g s hand proc va area (s', .ok ⟨page, false⟩) := by
  refine ⟨hkeep, h, ?_⟩
  rw [if_neg (by simp)]
  refine ⟨hdata, fun perm d hcow => ?_⟩
  refine .fresh h hone ha.aligned ha.covered (fun inode offset hk => ?_)
    fun hc => absurd hc (by simp [hcow])
  rcases hp : areaPrivate area with _ | _
  · have hf := hn.resolve_left (by simp [hp])
    rw [ha.kind, pageKind_anon hp hf] at hk
    exact absurd hk (by simp)
  · exact absurd ((ha.kind_priv.mpr hp).symm.trans hk) (by simp)

/-- A page that an allocation returned, or none. -/
theorem Found.took {r : Machine Proc × Option Page} (h : Took g s hand r) (ha : PageOf g proc va area)
    (hn : areaPrivate area = true ∨ area.file = none) (hdata : ∀ s' page, Holds g s' area va page) :
    Found g s hand proc va area (r.1, match r.2 with
      | some page => .ok ⟨page, false⟩
      | none => .error .nomem) := by
  obtain ⟨hframe, ⟨hnone, hinv⟩ | ⟨page, hsome, _, hinv, hone⟩⟩ := h
  · simp only [hnone]
    exact ⟨hframe.keeps, hinv, by decide⟩
  · simp only [hsome]
    exact .fresh hframe.keeps hinv hone ha hn fun _ => hdata _ _

section
variable (h : Inv g s hand)
include h

section
variable (ha : PageOf g proc va area)
include ha

/-- **A private copy of a page of the file.** -/
theorem Inv.mmapFilePrivate [DecidableEq Proc] {bytes : Nat} (hfile : area.file = some file)
    (hbytes : ∀ i < pgsize, (area.usage = .elf → va - area.start + i < area.fileLength) →
      area.offset + va - area.start + i < (s.files file.inode).size → i < bytes) :
    Found g s hand proc va area (mmapFilePrivate s area file (area.offset + va - area.start) bytes) := by
  unfold Mm.mmapFilePrivate
  split
  · exact ⟨⟨rfl, rfl, fun _ => rfl⟩, h, by decide⟩
  rename_i hshared
  have hpriv : areaPrivate area = true := by
    by_contra hn
    exact hshared (ha.attr.shared.mpr (by simpa using hn))
  obtain ⟨fT, tT⟩ := h.pallocReclaim
  generalize Mm.pallocReclaim s = T at *
  obtain ⟨sT, took⟩ := T
  rcases tT with ⟨rfl, iT⟩ | ⟨page, rfl, _, iT, hone⟩
  · exact ⟨fT.keeps, iT, by decide⟩
  simp only
  -- the cached pages of the file are written back while the page is in hand
  generalize hback : (if sT.canRead file then Mm.pageCacheWritebackInode sT file.inode else (sT, false)) = B
  obtain ⟨sB, back⟩ := B
  obtain ⟨iB, fB, hread⟩ : Inv g sB (page ::ₘ hand) ∧ WritesBack sT sB ∧ (back = true → g.coherent →
      ∀ x < (sB.files file.inode).size, (sB.files file.inode).data x = g.bytes file.inode x) := by
    split at hback
    · obtain ⟨_, h2, h3, h4⟩ := iT.pageCacheWritebackInode file.inode
      rw [hback] at h2 h3 h4
      exact ⟨h2, h3, fun _ hc x hx => h2.file_bytes hc (h4 hc) hx⟩
    · cases hback
      exact ⟨iT, .refl sT, fun hf => absurd hf (by simp)⟩
  have kB : Keeps s sB := fT.keeps.trans ⟨fB.ptes, fB.vmas, fB.size⟩
  have oneB : sB.refs page = 1 := by
    have := congrFun fB.refs page
    exact this.trans hone
  have iR := iB.outcome
  have fR := outcome_allocs sB
  generalize Mm.outcome sB = R at *
  obtain ⟨sR, read⟩ := R
  have oneR : sR.refs page = 1 := (fR.refs page (by rw [oneB]; decide)).trans oneB
  split
  · have iN := iR.outcome
    have fN := outcome_allocs sR
    refine ⟨((kB.trans fR.keeps).trans fN.keeps).pfree, iN.pfree, ?_⟩
    split <;> decide
  refine .fresh ⟨(kB.trans fR.keeps).ptes, (kB.trans fR.keeps).vmas, (kB.trans fR.keeps).size⟩
    (iR.setData _ (iR.fresh oneR).2.1) oneR ha (.inl hpriv) fun hc file' hf i hi helf hx => ?_
  rename_i hok
  obtain rfl := some.inj (hfile.symm.trans hf)
  show Function.update sR.data page _ page i = _
  rw [Function.update_self, if_pos (hbytes i hi helf ?_), fR.files]
  · refine hread ?_ hc _ (by rwa [← fR.files])
    simp only [Bool.or_eq_true, Bool.not_eq_true', not_or, Bool.not_eq_false] at hok
    exact hok.1.1
  · rw [← (kB.trans fR.keeps).size]
    exact hx

/-- **`mmap_file_fault`.** -/
theorem Inv.mmapFileFault [DecidableEq Proc] (hfile : area.file = some file) :
    Found g s hand proc va area (mmapFileFault s area file va) := by
  have hstart := ha.start
  unfold Mm.mmapFileFault
  simp only [← Nat.add_sub_assoc hstart]
  split
  · rename_i helf
    exact .took h.pallocZero ha (.inl (areaPrivate_iff.mpr (ha.attr.elf helf.1)))
      fun s' page file _ i _ hlt => absurd (hlt helf.1) (by omega)
  split
  · exact ⟨⟨rfl, rfl, fun _ => rfl⟩, h, by decide⟩
  generalize hbytes : min pgsize (if area.usage = .elf then area.fileLength - (va - area.start)
    else (s.files file.inode).size - (area.offset + va - area.start)) = bytes
  -- as many bytes as come from the file
  have hpriv : ∀ i < pgsize, (area.usage = .elf → va - area.start + i < area.fileLength) →
      area.offset + va - area.start + i < (s.files file.inode).size → i < bytes := by
    intro i hi helf hx
    rw [← hbytes]
    split
    · rename_i he
      have := helf he
      omega
    · omega
  split
  · rename_i hcache
    -- the read covers all the file has of the page
    have hall : ∀ i < pgsize, area.offset + va - area.start + i < (s.files file.inode).size →
        i < bytes := by
      intro i hi hx
      rw [Bool.or_eq_true, decide_eq_true_iff, decide_eq_true_iff] at hcache
      rcases hcache with hmmap | hfull
      · rw [if_neg (by rw [hmmap]; decide)] at hbytes
        omega
      · rwa [hfull]
    obtain ⟨hgot, hkeep⟩ := h.pageCacheGet hall
    generalize Mm.pageCacheGet s file (area.offset + va - area.start) bytes = G at *
    obtain ⟨sG, result⟩ := G
    cases result with
    | ok =>
      obtain ⟨hinv, entry, he, hkey, hpage⟩ := hgot
      refine ⟨hkeep, hinv, ?_⟩
      rw [if_pos rfl]
      exact ⟨file, hfile, entry, he, hkey, hpage⟩
    | retry => exact ⟨hkeep, hgot, by decide⟩
    | io =>
      refine ⟨hkeep, hgot, ?_⟩
      split <;> decide
    | error =>
      exact (Inv.mmapFilePrivate hgot ha hfile fun i hi helf hx =>
        hpriv i hi helf (hkeep.size file.inode ▸ hx)).after hkeep
  · exact h.mmapFilePrivate ha hfile hpriv

/-- **Where the page for a fault comes from.** -/
theorem Inv.mmapFaultPage [DecidableEq Proc] : Found g s hand proc va area (mmapFaultPage s area va) := by
  unfold Mm.mmapFaultPage
  split
  · rename_i file horigin hfile
    exact h.mmapFileFault ha hfile
  · rename_i backing horigin hback
    have hshared : areaShared area = true := areaShared_iff.mpr (ha.attr.backing (by
      show area.backing.isSome
      rw [hback]
      rfl))
    have hpriv := ha.attr.shared.mp hshared
    have hfile : area.file = none := by
      by_contra hne
      have := ha.wf.file_iff.mp (Option.isSome_iff_ne_none.mpr hne)
      rw [horigin] at this
      exact absurd this (by decide)
    have hkind : g.kind proc va = some .sharedAnon := by rw [ha.kind, pageKind_anon hpriv hfile]
    obtain ⟨hkeep, hres⟩ := h.anonMappingGetPage backing (area.offset + va - area.start)
    generalize Mm.anonMappingGetPage s backing (area.offset + va - area.start) = A at *
    obtain ⟨sA, result⟩ := A
    rcases hres with ⟨rfl, hinv⟩ | ⟨page, rfl, hinv, hcache⟩
    · exact ⟨hkeep, hinv, by decide⟩
    refine ⟨hkeep, hinv, ?_⟩
    rw [if_neg (by simp)]
    refine ⟨fun _ file hf => absurd (hfile.symm.trans hf) (by simp), fun perm d hcow => ?_⟩
    exact
      { aligned := ha.aligned
        covered := ha.covered
        exclusive := fun _ hk => absurd (hkind.symm.trans hk) (by simp)
        sharedFile := fun inode offset hk => absurd (hkind.symm.trans hk) (by simp)
        sharedAnon := fun _ => hcache
        cow := fun hc => absurd hc (by simp [hcow])
        tracked := fun _ entry he hp => absurd hp (hcache entry he) }
  · rename_i hnofile hnoback
    -- a file-backed area has a file, so this area is anonymous
    have hnone : area.file = none := by
      cases hf : area.file with
      | none => rfl
      | some file => exact (hnofile file (ha.wf.file_iff.mp (by rw [hf]; rfl)) hf).elim
    exact .took h.pallocReclaim ha (.inr hnone) fun _ _ file hf => absurd (hnone.symm.trans hf) (by simp)

/-! ## Mapping it -/

/-- A page of the cache may be mapped at its place: writable only if the area is shared and the entry is
    tracked for write-back, copy-on-write only if it is private. -/
theorem Mappable.cached {perm : Perm} {d : Bool} (hfile : area.file = some file) (he : entry ∈ s.cache)
    (hkey : entry.key = (file.inode, area.offset + va - area.start)) (hpage : entry.page = page)
    (hw : perm.w = true → areaPrivate area = false ∧ entry.writebackMapped = true)
    (hcow : perm.cow = true → areaPrivate area = true) :
    Mappable g s.refs s.pins s.cache ⟨proc, va, page, perm, d⟩ where
  aligned := ha.aligned
  covered := ha.covered
  exclusive := fun hpw hk => absurd (ha.kind_priv.mp hk) (by simp [(hw hpw).1])
  sharedFile := fun inode offset hk => by
    have hn : areaPrivate area = false := by
      by_contra hp
      have hp : areaPrivate area = true := by simpa using hp
      exact absurd ((ha.kind_priv.mpr hp).symm.trans hk) (by simp)
    have hplace := (ha.kind_file hn hfile).symm.trans hk
    simp only [some.injEq, PageKind.sharedFile.injEq] at hplace
    exact ⟨entry, he, by rw [hkey, hplace.1, hplace.2], hpage⟩
  sharedAnon := fun hk => by
    rcases hp : areaPrivate area with _ | _
    · exact absurd ((ha.kind_file hp hfile).symm.trans hk) (by simp)
    · exact absurd ((ha.kind_priv.mpr hp).symm.trans hk) (by simp)
  cow := fun hc => ha.kind_priv.mpr (hcow hc)
  tracked := fun hpw other ho hop => by
    have : other = entry := h.cachePages.inj ho he (hop.trans hpage.symm)
    rw [this]
    exact (hw hpw).2

omit h in
omit ha in
/-- Marks leave an entry with its key and page. -/
theorem Marks.after (h : Marks s s') (he : entry ∈ s.cache) :
    ∃ after ∈ s'.cache, after.key = entry.key ∧ after.page = entry.page := by
  have hslot : entry.slot ∈ s'.cache.map CacheEntry.slot := h.slots ▸ mem_map_of_mem he
  obtain ⟨after, ha, hk⟩ := mem_map.mp hslot
  exact ⟨after, ha, Prod.mk_inj.mp hk⟩

omit h in
omit ha in
/-- The permissions of a cached page that may be written through none of its leaves. -/
theorem mmapPtePermissions_cow {protection : Nat} : (mmapPtePermissions protection).cow = false := by
  unfold mmapPtePermissions
  split <;> rfl

/-- **The marks of a cached page**, and the permissions it may be mapped with after them. -/
theorem Inv.mmapFaultMarks (hfile : area.file = some file) (he : entry ∈ s.cache)
    (hkey : entry.key = (file.inode, area.offset + va - area.start)) (access : FaultAccess) :
    let r := mmapFaultMarks s area file (area.offset + va - area.start) access
    Inv g r.1 hand ∧ Marks s r.1 ∧ ∀ perm, r.2 = some perm → ∀ d, Mappable g r.1.refs r.1.pins r.1.cache
        ⟨proc, va, entry.page, perm, d⟩ := by
  unfold Mm.mmapFaultMarks
  simp only
  generalize hperm : (if areaPrivate area && (mmapPtePermissions area.protection).w then
    { mmapPtePermissions area.protection with w := false, cow := true }
    else mmapPtePermissions area.protection) = perm
  have hpermw : perm.w = true → areaPrivate area = false := by
    intro hw
    rw [← hperm] at hw
    split at hw
    · exact absurd hw (by simp)
    · rename_i hc
      by_contra hp
      exact hc (by simp [hw, (by simpa using hp : areaPrivate area = true)])
  have hpermc : perm.cow = true → areaPrivate area = true := by
    intro hc
    rw [← hperm] at hc
    split at hc
    · rename_i hp
      exact (Bool.and_eq_true_iff.mp hp).1
    · exact absurd hc (by simp [mmapPtePermissions_cow])
  generalize hexec : (if area.protection &&& linuxProtExec ≠ 0 then
      Mm.pageCacheMarkExecutable s file (area.offset + va - area.start) else (s, true)) = E
  obtain ⟨iE, mE⟩ : Inv g E.1 hand ∧ Marks s E.1 := by
    rw [← hexec]
    split
    · exact h.pageCacheMarkExecutable file _
    · exact ⟨h, .refl s⟩
  obtain ⟨sE, ok⟩ := E
  obtain ⟨after, hafter, hakey, hapage⟩ := mE.after he
  split
  · exact ⟨iE, mE, fun perm hs => absurd hs (by simp)⟩
  split
  · rename_i hsw
    split
    · -- mapped read-only until the first write
      refine ⟨iE, mE, fun perm' hs d => ?_⟩
      obtain rfl := some.inj hs
      exact .cached iE ha hfile hafter (hakey.trans hkey) hapage (fun hw => absurd hw (by simp)) hpermc
    obtain ⟨iM, mM, hmark⟩ := iE.vfsFileMarkSharedDirty file (area.offset + va - area.start)
    generalize Mm.vfsFileMarkSharedDirty sE file (area.offset + va - area.start) = M at *
    obtain ⟨sM, marked⟩ := M
    refine ⟨iM, mE.trans mM, fun perm' hs d => ?_⟩
    cases marked with
    | false => exact absurd hs (by simp)
    | true =>
      obtain rfl := some.inj hs
      obtain ⟨last, hlast, hlkey, hlpage⟩ := mM.after hafter
      have hlkey := hlkey.trans (hakey.trans hkey)
      exact .cached iM ha hfile hlast hlkey (hlpage.trans hapage)
        (fun hw => ⟨hpermw hw, hmark rfl last hlast hlkey⟩) hpermc
  · rename_i hsw
    refine ⟨iE, mE, fun perm' hs d => ?_⟩
    obtain rfl := some.inj hs
    refine .cached iE ha hfile hafter (hakey.trans hkey) hapage (fun hw => ?_) hpermc
    exact absurd (by simp [hw, ha.attr.shared.mpr (hpermw hw)]) hsw

end

/-- The page of the entry for a place has the bytes of the file. -/
theorem Holds.of_entry (hc : g.coherent) (hfile : area.file = some file) (he : entry ∈ s.cache)
    (hkey : entry.key = (file.inode, area.offset + va - area.start)) (hpage : entry.page = page) :
    Holds g s area va page := by
  intro file' hf i hi _ hx
  obtain rfl := some.inj (hfile.symm.trans hf)
  obtain ⟨hin, hoff⟩ := Prod.mk_inj.mp hkey
  rw [← hpage, h.cached hc entry he i hi (by rw [hin, hoff]; exact hx), hin, hoff]

section
variable (hfound : Found g s hand proc va area r) (hp : r.2 = .ok p) (ha : PageOf g proc va area)
include hfound hp ha

omit h in
/-- **The permissions of the page found.** -/
theorem Inv.mmapFaultPermissions (access : FaultAccess) : let after := mmapFaultPermissions r.1 area va access p
    Inv g after.1 (p.page ::ₘ hand) ∧ Keeps s after.1 ∧ (g.coherent → Holds g after.1 area va p.page) ∧
    ∀ perm, after.2 = some perm → Mappable g after.1.refs after.1.pins after.1.cache
        ⟨proc, va, p.page, perm, false⟩ := by
  obtain ⟨hkeep, hfound⟩ := hfound
  rw [hp] at hfound
  obtain ⟨hinv, hfound⟩ := hfound
  unfold Mm.mmapFaultPermissions
  cases hcached : p.cached with
  | false =>
    rw [if_neg (by simp [hcached])] at hfound
    refine ⟨hinv, hkeep, hfound.1, fun perm hs => ?_⟩
    obtain rfl := some.inj hs
    exact hfound.2 _ _ mmapPtePermissions_cow
  | true =>
    rw [if_pos hcached] at hfound
    obtain ⟨file, hfile, entry, he, hkey, hpage⟩ := hfound
    simp only [hfile]
    obtain ⟨h1, h2, h3⟩ := hinv.mmapFaultMarks ha hfile he hkey access
    obtain ⟨after, hafter, hakey, hapage⟩ := h2.after he
    exact ⟨h1, hkeep.trans h2.toKeeps,
      fun hc => .of_entry h1 hc hfile hafter (hakey.trans hkey) (hapage.trans hpage),
      fun perm hs => hpage ▸ h3 perm hs false⟩

omit h in
/-- **The page found is mapped.** -/
theorem Inv.mmapFaultMap [DecidableEq Proc] (hfree : ∀ pte ∈ s.ptes, pte.key ≠ (proc, va)) (access : FaultAccess) :
    let after := mmapFaultMap r.1 proc area va access p
    Inv g after.1 hand ∧ after.1.vmas = s.vmas ∧ (after.2 = .ok → ∃ pte ∈ after.1.ptes, pte.key = (proc, va) ∧
        (g.coherent → Holds g after.1 area va pte.page)) := by
  obtain ⟨hinv, hkeep, hdata, hmap⟩ := Inv.mmapFaultPermissions hfound hp ha access
  unfold Mm.mmapFaultMap
  generalize Mm.mmapFaultPermissions r.1 area va access p = M at *
  obtain ⟨sM, perm⟩ := M
  cases perm with
  | none =>
    refine ⟨hinv.pfree, pfree_vmas.trans hkeep.vmas, fun hr => ?_⟩
    exact absurd (show nomem = .ok from hr) (by decide)
  | some perm =>
    have hfree : ∀ pte ∈ sM.ptes, pte.key ≠ (proc, va) := by rwa [hkeep.ptes]
    rcases hinv.vmMap hfree (hmap perm rfl) with ⟨hr, hi, hf⟩ | ⟨hr, hi, t, hf, ht⟩
    · simp only [hr, Bool.false_eq_true, if_false]
      exact ⟨hi.pfree, pfree_vmas.trans (hf.vmas.trans hkeep.vmas), fun hres => absurd hres (by decide)⟩
    simp only [hr, if_true]
    rw [ht] at hi ⊢
    refine ⟨hi, hf.vmas.trans hkeep.vmas, fun _ => ⟨_, mem_cons_self, rfl, fun hc file hfile i hi helf hx => ?_⟩⟩
    -- the tables that `vm_map` allocates are other pages
    have hpos : sM.refs p.page ≠ 0 := Nat.pos_iff_ne_zero.mp
      (hinv.counted.pos (mem_add.mpr (.inl (Multiset.mem_cons_self ..))))
    rw [hf.data _ hpos]
    exact hdata hc file hfile i hi helf (by rwa [← hf.files])

end

/-- **A fault at an address with a leaf**: a shared page of a file becomes writable when it is marked, a
    private one when it is copied. -/
theorem Inv.mmapFaultMapped [DecidableEq Proc] {pte : Pte Proc} (hp : pte ∈ s.ptes) (ha : PageOf g pte.proc pte.va area)
    (access : FaultAccess) :
    Inv g (mmapFaultMapped s area pte access).1 hand ∧ (mmapFaultMapped s area pte access).1.vmas = s.vmas := by
  have hresolve : Inv g (Mm.mmapFaultMapped.resolve s pte access).1 hand ∧
      (Mm.mmapFaultMapped.resolve s pte access).1.vmas = s.vmas := by
    unfold Mm.mmapFaultMapped.resolve
    generalize hC : (if access = .write then Mm.vmResolveCow s pte.proc pte.va else (s, 0)) = C
    have hcow : Inv g C.1 hand ∧ C.1.vmas = s.vmas := by
      rw [← hC]
      split
      · exact h.vmResolveCow pte.proc pte.va
      · exact ⟨h, rfl⟩
    simp only
    split
    · exact hcow
    · split <;> exact hcow
  unfold Mm.mmapFaultMapped
  split
  · rename_i file hfile
    split
    · rename_i hcond
      simp only [Bool.and_eq_true, decide_eq_true_eq] at hcond
      have hpriv := ha.attr.shared.mp hcond.1.2
      obtain ⟨entry, he, hkey, hpage⟩ := (h.mapped pte hp).sharedFile _ _ (ha.kind_file hpriv hfile)
      obtain ⟨iM, mM, hmark⟩ := h.vfsFileMarkSharedDirty file (area.offset + pte.va - area.start)
      generalize Mm.vfsFileMarkSharedDirty s file (area.offset + pte.va - area.start) = M at *
      obtain ⟨sM, marked⟩ := M
      cases marked with
      | false => exact ⟨iM, mM.vmas⟩
      | true =>
        obtain ⟨after, hafter, hakey, hapage⟩ := mM.after he
        have hnotcow : pte.perm.cow = true → areaPrivate area = true := fun hc =>
          ha.kind_priv.mp ((h.mapped pte hp).cow hc)
        have hmap : Mappable g sM.refs sM.pins sM.cache { pte with perm := { pte.perm with w := true } } :=
          Mappable.cached iM ha hfile hafter (hakey.trans hkey) (hapage.trans hpage)
            (fun _ => ⟨hpriv, hmark rfl after hafter (hakey.trans hkey)⟩) hnotcow
        have hset : Inv g (sM.setPte pte { pte with perm := { pte.perm with w := true } }) hand :=
          iM.setPte (mM.ptes ▸ hp) rfl rfl hmap
        exact ⟨hset, mM.vmas⟩
    · exact hresolve
  · exact hresolve

/-- **`mmap_handle_fault`.** -/
theorem Inv.mmapHandleFault [Fintype Proc] [DecidableEq Proc] (hw : WorldOk s.vmas) (hk : Knows g s) (proc : Proc)
    (address : Nat) (access : FaultAccess) :
    Inv g (mmapHandleFault s proc address access).1 hand ∧
    (mmapHandleFault s proc address access).1.vmas = s.vmas := by
  unfold Mm.mmapHandleFault
  split
  · exact ⟨h, rfl⟩
  split
  · exact ⟨h, rfl⟩
  rename_i area hfind
  have ha := hk.pageOf hw hfind
  split
  · exact ⟨h, rfl⟩
  split
  · rename_i pte hpte
    obtain ⟨hp, hkey⟩ := h.findPte_eq_some.mp hpte
    obtain ⟨hproc, hva⟩ := Prod.mk_inj.mp hkey
    rw [← hva, ← hproc] at ha
    exact h.mmapFaultMapped hp ha access
  rename_i hnone
  have hfound := h.mmapFaultPage ha
  simp only
  split
  · rename_i hres
    have hkeep := hfound.1
    have hinv := hfound.2
    rw [hres] at hinv
    exact ⟨hinv.1, hkeep.vmas⟩
  · rename_i page hres
    obtain ⟨h1, h2, _⟩ := Inv.mmapFaultMap hfound hres ha (findPte_eq_none.mp hnone) access
    exact ⟨h1, h2⟩

/-- **A page that a fault maps for the first time** has the bytes of the file. -/
theorem Inv.mmapHandleFault_new [Fintype Proc] [DecidableEq Proc] {access : FaultAccess} (hw : WorldOk s.vmas)
    (hk : Knows g s) (hfind : vmaFind address (s.vmas.sets proc) = some area)
    (hnone : s.findPte proc (pgrounddown address) = none)
    (hok : (Mm.mmapHandleFault s proc address access).2 = .ok) :
    ∃ pte ∈ (Mm.mmapHandleFault s proc address access).1.ptes, pte.key = (proc, pgrounddown address) ∧
      (g.coherent → Holds g (Mm.mmapHandleFault s proc address access).1 area (pgrounddown address) pte.page) := by
  have ha := hk.pageOf hw hfind
  have hfound := h.mmapFaultPage ha
  unfold Mm.mmapHandleFault at hok ⊢
  split at hok
  · exact absurd (show maperr = .ok from hok) (by decide)
  rw [if_neg (by assumption)]
  simp only [hfind, hnone] at hok ⊢
  split at hok
  · exact absurd (show accerr = .ok from hok) (by decide)
  rename_i hallowed
  rw [if_neg hallowed]
  generalize hr : Mm.mmapFaultPage s area (pgrounddown address) = r at *
  obtain ⟨sR, result⟩ := r
  cases result with
  | error =>
    exact absurd hok hfound.2.2
  | ok =>
    exact (Inv.mmapFaultMap hfound rfl ha (findPte_eq_none.mp hnone) access).2.2 hok

end

end Caffeinix.Mm
