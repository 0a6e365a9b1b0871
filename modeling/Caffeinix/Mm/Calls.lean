import Caffeinix.Mm.Fault

/-!
# `Mm.Calls` — the invariant through the calls of a process

`MemInv` is the invariant between two calls: nothing is in hand, and the kinds are those of the VMA sets. The
calls here change what is mapped and where, but no bytes of files. `munmap` and a fixed `mmap` end with
`page_cache_reclaim_unmapped`; for the bytes of files they need that nothing is lost there
(`UnmappedSynced`).
-/

namespace Caffeinix.Mm

open Nat Vma Option

variable {Proc : Type} [Fintype Proc] [DecidableEq Proc] {g : Ghost Proc} {s s' : Machine Proc}
  {hand : Multiset Page} {page : Page} {pte : Pte Proc} {proc : Proc} {bytes : Nat → Nat → UInt8}
  {coherent : Prop}

/-- **The invariant between calls.** -/
structure MemInv (bytes : Nat → Nat → UInt8) (coherent : Prop) (s : Machine Proc) : Prop where
  world : WorldOk s.vmas
  inv : Inv ⟨kinds s.vmas, bytes, coherent⟩ s 0

/-- The files have the bytes of the entries that `page_cache_reclaim_unmapped` would release. -/
def UnmappedSynced (s : Machine Proc) : Prop := ∀ entry ∈ s.cache, entry.unmapped s = true → Synced s entry

omit [Fintype Proc] [DecidableEq Proc] in
theorem MemInv.knows : Knows ⟨kinds s.vmas, bytes, coherent⟩ s := fun _ _ _ => rfl

omit [DecidableEq Proc] in
/-- The VMA sets have not changed. -/
theorem MemInv.keep {bytes' : Nat → Nat → UInt8} (h : MemInv bytes coherent s)
    (hinv : Inv ⟨kinds s.vmas, bytes', coherent⟩ s' 0) (hv : s'.vmas = s.vmas) : MemInv bytes' coherent s' := by
  refine ⟨hv ▸ h.world, ?_⟩
  rw [hv]
  exact hinv

omit [DecidableEq Proc] in
/-- The VMA sets have changed, but not for the leaves there are. -/
theorem MemInv.rekind {kind : Proc → Nat → Option PageKind} (hw : WorldOk s.vmas)
    (hinv : Inv ⟨kind, bytes, coherent⟩ s 0)
    (hk : ∀ pte ∈ s.ptes, pgsize ∣ pte.va → kind pte.proc pte.va ≠ none →
      kinds s.vmas pte.proc pte.va = kind pte.proc pte.va) : MemInv bytes coherent s :=
  ⟨hw, hinv.congr_kind fun pte hp => hk pte hp (hinv.mapped pte hp).aligned (hinv.mapped pte hp).covered⟩

omit [Fintype Proc] in
/-- A call of `vma.c`, as far as pages go. -/
theorem Inv.vma (h : Inv g s hand) (op : VmaOp Proc) :
    Inv g (s.vma op).1 hand ∧ (s.vma op).1.ptes = s.ptes ∧ (s.vma op).1.vmas = (s.vmas.step op).1 := by
  have hset : Inv g { s with vmas := (s.vmas.step op).1 } hand := { h with }
  obtain ⟨h1, h2⟩ := hset.anonMappingPut
  exact ⟨h1, h2.ptes, h2.vmas⟩

/-- **A call that adds an area.** -/
theorem MemInv.vma_extends (h : MemInv bytes coherent s) (op : VmaOp Proc)
    (hop : WorldOk (s.vmas.step op).1 ∧ Extends s.vmas (s.vmas.step op).1) :
    MemInv bytes coherent (s.vma op).1 := by
  obtain ⟨h1, h2, h3⟩ := h.inv.vma op
  refine .rekind (h3 ▸ hop.1) h1 fun pte _ hva hk => ?_
  rw [h3]
  exact hop.2 pte.proc pte.va hva hk

/-! ## `munmap`, `brk` and `mmap` -/

variable {length : Nat}

section
variable (h : MemInv bytes coherent s)
include h

variable (proc : Proc)

/-- A call of `vma_unmap` and the unmapping of the leaves in its range. -/
theorem MemInv.unmapRange (outcome : Allocation) {start : Nat} (hs : pgsize ∣ start) (hl : pgsize ∣ length) :
    let r := s.vma (.unmap proc outcome start (start + length))
    (r.2 < 0 ∧ MemInv bytes coherent r.1) ∨
    (¬ r.2 < 0 ∧ MemInv bytes coherent (vmUnmapRange r.1 proc start length)) := by
  obtain ⟨h1, h2, h3⟩ := h.inv.vma (.unmap proc outcome start (start + length))
  have hres := s.vma_result (.unmap proc outcome start (start + length))
  rcases h.world.unmap outcome start (start + length) with hf | ⟨hok, hw, hk⟩
  · rw [hf] at h3 hres
    exact .inl ⟨by rw [hres]; show (-1 : Int) < 0; decide, h.keep h1 h3⟩
  rw [hok] at hres
  obtain ⟨h4, h5, h6⟩ := h1.vmUnmapRange proc hs hl
  refine .inr ⟨by rw [hres]; decide, .rekind (by rw [h5, h3]; exact hw) h4
    fun pte hp hva _ => ?_⟩
  rw [h5, h3, hk _ _ hva, if_neg (h6 pte hp).2]

/-- The pages that nothing maps any more are released. -/
theorem MemInv.pageCacheReclaimUnmapped (hsync : coherent → UnmappedSynced s) :
    MemInv bytes coherent (pageCacheReclaimUnmapped s) := by
  obtain ⟨h1, h2⟩ := h.inv.pageCacheReclaimUnmapped hsync
  exact h.keep h1 h2.vmas

omit h in
theorem mmapRoundLength_dvd {rounded : Nat} (h : mmapRoundLength length = some rounded) :
    pgsize ∣ rounded := by
  unfold mmapRoundLength at h
  split at h
  · exact absurd h (by simp)
  · exact (some.inj h) ▸ pgrounddown_dvd

/-- What `munmap` has unmapped before it releases pages. -/
def munmapped (s : Machine Proc) (proc : Proc) (address length : Nat) (outcome : Allocation) : Machine Proc :=
  vmUnmapRange (s.vma (.unmap proc outcome address (address + length))).1 proc address length

/-- **`sys_linux_munmap`.** -/
theorem MemInv.sysLinuxMunmap (address length : Nat) (outcome : Allocation)
    (hsync : coherent → ∀ rounded, mmapRoundLength length = some rounded →
      UnmappedSynced (munmapped s proc address rounded outcome)) :
    MemInv bytes coherent (sysLinuxMunmap s proc address length outcome).1 := by
  unfold Mm.sysLinuxMunmap
  split
  · exact h
  rename_i rounded hround
  split
  · exact h
  rename_i hargs
  simp only [Bool.or_eq_true, decide_eq_true_eq, not_or, not_not] at hargs
  rcases h.unmapRange proc outcome (dvd_of_mod_eq_zero hargs.1.1) (mmapRoundLength_dvd hround) with
    ⟨hlt, hm⟩ | ⟨hlt, hm⟩
  · rw [if_pos hlt]
    exact hm
  · rw [if_neg hlt]
    exact hm.pageCacheReclaimUnmapped fun hc => hsync hc rounded hround

/-- **`sys_linux_brk`.** -/
theorem MemInv.sysLinuxBrk (brk brkStart mmapTop requested : Nat) (outcome : Allocation) :
    MemInv bytes coherent (sysLinuxBrk s proc brk brkStart mmapTop requested outcome).1 := by
  unfold Mm.sysLinuxBrk
  simp only
  split
  · exact h
  split
  · split
    · exact h
    · have hflags : linuxMapPrivate &&& 0xf = linuxMapPrivate := by decide
      dsimp only
      exact h.vma_extends _ (h.world.insert proc outcome _ _ _ _ _ _ _ _ (.inl hflags) (by decide))
  split
  · rename_i hshrink
    have hs : pgsize ∣ pgroundup requested := pgrounddown_dvd
    have hl : pgsize ∣ pgroundup brk - pgroundup requested := Nat.dvd_sub pgrounddown_dvd hs
    have hfin : pgroundup requested + (pgroundup brk - pgroundup requested) = pgroundup brk := by omega
    have := h.unmapRange proc outcome hs hl
    rw [hfin] at this
    rcases this with ⟨hlt, hm⟩ | ⟨hlt, hm⟩
    · rw [if_pos hlt]
      exact hm
    · rw [if_neg hlt]
      dsimp only
      exact hm
  · exact h

/-- **A segment of a program.** -/
theorem MemInv.elfImageMap (outcome : Allocation) (e : ElfArgs) :
    MemInv bytes coherent (elfImageMap s proc outcome e) := by
  unfold Mm.elfImageMap
  split
  · exact h
  · rename_i hfind
    exact h.vma_extends _ (h.world.segment outcome outcome e (by simpa using hfind))

/-- The place of a mapping is made free. -/
theorem MemInv.mmapPlace (a : MmapArgs) (hl : pgsize ∣ length)
    (haligned : a.flags &&& (linuxMapFixed ||| linuxMapFixedNoreplace) ≠ 0 → pgsize ∣ a.address)
    (hsync : coherent → a.flags &&& linuxMapFixed ≠ 0 → UnmappedSynced (munmapped s proc a.address length a.unmap)) :
    MemInv bytes coherent (mmapPlace s proc a length).1 := by
  unfold Mm.mmapPlace
  split
  · rename_i hfixed
    split
    · exact h
    split
    · split <;> exact h
    rename_i hreplace
    have hfix : a.flags &&& linuxMapFixed ≠ 0 := fun hz => by
      rw [and_or_distrib_left, hz, not_not.mp hreplace] at hfixed
      exact hfixed rfl
    rcases h.unmapRange proc a.unmap (haligned hfixed) hl with ⟨hlt, hm⟩ | ⟨hlt, hm⟩
    · rw [if_pos hlt]
      exact hm
    · rw [if_neg hlt]
      exact hm.pageCacheReclaimUnmapped fun hc => hsync hc hfix
  · simp only
    split
    · exact h
    · split
      · exact h
      · split <;> exact h

omit h in
/-- A mapping with a new `struct anon_mapping`, which `sys_linux_mmap` holds for the time of the call. -/
theorem WorldOk.insertMapping {w : VmaWorld Proc} (h : WorldOk w) {proc : Proc} {outcome : Allocation}
    (start finish : Nat) {protection : Nat} {flags : Nat} {backing : VmaBacking}
    (hflags : flags &&& 0xf = linuxMapShared) :
    let w' := ((⟨w.refs.get [.backing backing], w.sets⟩ : VmaWorld Proc).step
      (.insertBacked proc outcome start finish protection flags .mmap (some backing) 0)).1
    WorldOk (⟨w'.refs.put [.backing backing], w'.sets⟩ : VmaWorld Proc) ∧
    Extends w (⟨w'.refs.put [.backing backing], w'.sets⟩ : VmaWorld Proc) := by
  intro w'
  obtain ⟨base, hinv⟩ := h.inv
  have hheld : WorldInv (base.get [.backing backing])
      (⟨w.refs.get [.backing backing], w.sets⟩ : VmaWorld Proc) := by
    refine ⟨hinv.areas, hinv.wf, fun k => ?_⟩
    show w.refs k + [RefKey.backing backing].count k =
      base k + [RefKey.backing backing].count k + ∑ set, (heldRefs (w.sets set)).count k
    rw [hinv.refs k]
    omega
  have hok : WorldOk (⟨w.refs.get [.backing backing], w.sets⟩ : VmaWorld Proc) := ⟨⟨_, hheld⟩, h.attr⟩
  obtain ⟨h1, h2⟩ := hok.insertBacked proc outcome start finish protection flags .mmap backing 0 hflags
    (by decide)
  have hinv' : WorldInv (base.get [.backing backing]) w' := worldInv_step hheld _
  refine ⟨⟨⟨base, hinv'.areas, hinv'.wf, fun k => ?_⟩, h1.attr⟩, h2⟩
  have hk := hinv'.refs k
  show w'.refs k - [RefKey.backing backing].count k = base k + ∑ set, (heldRefs (w'.sets set)).count k
  rw [hk]
  show base k + [RefKey.backing backing].count k + _ - [RefKey.backing backing].count k = _
  omega

/-- The area of a mapping goes in. -/
theorem MemInv.mmapInsert (a : MmapArgs) (length start : Nat)
    (hflags : a.flags &&& 0xf = linuxMapPrivate ∨ a.flags &&& 0xf = linuxMapShared) :
    MemInv bytes coherent (mmapInsert s proc a length start).1 := by
  have hland : (a.flags &&& 0xf) &&& 0xf = a.flags &&& 0xf := by rw [Nat.and_assoc, Nat.and_self]
  rw [← hland] at hflags
  unfold Mm.mmapInsert
  split
  · split
    · rename_i hshared
      split
      · exact h
      rename_i id _
      rw [← hland] at hshared
      obtain ⟨h1, h2⟩ := h.world.insertMapping start (start + length)
        hshared
      simp only at h1 h2 ⊢
      generalize (⟨_, _⟩ : VmaWorld Proc) = w at *
      have hset : Inv ⟨kinds s.vmas, bytes, coherent⟩ { s with vmas := w } 0 := { h.inv with }
      obtain ⟨h3, h4⟩ := hset.anonMappingPut
      refine .rekind (h4.vmas ▸ h1) h3 fun pte _ hva hk => ?_
      rw [h4.vmas]
      exact h2 pte.proc pte.va hva hk
    · exact h.vma_extends _ (h.world.insert proc a.insert _ _ _ _ _ _ _ _ hflags (by decide))
  · exact h.vma_extends _ (h.world.insert proc a.insert _ _ _ _ _ _ _ _ hflags (by decide))

/-- **`sys_linux_mmap`.** -/
theorem MemInv.sysLinuxMmap (a : MmapArgs)
    (hsync : coherent → a.flags &&& linuxMapFixed ≠ 0 → ∀ rounded, mmapRoundLength a.length = some rounded →
      UnmappedSynced (munmapped s proc a.address rounded a.unmap)) :
    MemInv bytes coherent (sysLinuxMmap s proc a).1 := by
  unfold Mm.sysLinuxMmap
  split
  · exact h
  rename_i rounded hround
  split
  · exact h
  rename_i hargs
  simp only [Bool.or_eq_true, Bool.and_eq_true, decide_eq_true_eq, not_or, not_and, ne_eq, not_not]
    at hargs
  have hflags : a.flags &&& 0xf = linuxMapPrivate ∨ a.flags &&& 0xf = linuxMapShared := by
    by_cases hp : a.flags &&& 0xf = linuxMapPrivate
    · exact .inl hp
    · exact .inr (hargs.1.1.2 hp)
  split
  · exact h
  split
  · exact h
  rename_i haddr
  simp only [Bool.and_eq_true, decide_eq_true_eq, not_and, ne_eq, not_not] at haddr
  split
  · exact h
  simp only
  split
  · exact h
  have hplace := h.mmapPlace proc a (mmapRoundLength_dvd hround)
    (fun hf => dvd_of_mod_eq_zero (haddr hf)) fun hc hfix => hsync hc hfix rounded hround
  split
  · exact hplace
  · exact hplace.mmapInsert proc a rounded _ hflags

/-! ## `mprotect` and `msync` -/

omit h in
theorem mmapPtePermissions_valid {protection : Nat} (h : protection < 8) :
    let r := mmapPtePermissions protection
    (r.r || r.w || r.x) = true ∧ (r.w && !r.r) = false := by
  have hall : ∀ p < 8, ((mmapPtePermissions p).r || (mmapPtePermissions p).w || (mmapPtePermissions p).x) = true ∧
      ((mmapPtePermissions p).w && !(mmapPtePermissions p).r) = false := by decide
  exact hall protection h

/-- **`sys_linux_mprotect`**: the leaves get the protection of their areas. -/
theorem MemInv.sysLinuxMprotect (address length protection : Nat) (startOutcome endOutcome : Allocation) :
    MemInv bytes coherent (sysLinuxMprotect s proc address length protection startOutcome endOutcome).1 := by
  unfold Mm.sysLinuxMprotect
  split
  · exact h
  rename_i hargs
  simp only [Bool.or_eq_true, Bool.not_eq_true', decide_eq_true_eq, not_or, Bool.not_eq_false, ne_eq, not_not]
    at hargs
  split
  · exact h
  split
  · exact h
  rename_i hlength
  split
  · exact h
  rename_i rounded hround
  simp only
  split
  · exact h
  rename_i htop
  simp only [Bool.or_eq_true, decide_eq_true_eq, not_or, not_lt] at htop
  split
  · exact h
  split
  · exact h
  obtain ⟨h1, h2, h3⟩ := h.inv.vma
    (.protect proc startOutcome endOutcome address (address + rounded) protection)
  have hres := s.vma_result (.protect proc startOutcome endOutcome address (address + rounded) protection)
  generalize s.vma (.protect proc startOutcome endOutcome address (address + rounded)
    protection) = r at *
  rcases h.world.protect startOutcome endOutcome address (address + rounded) protection with
    hf | ⟨hok, hw, hk⟩
  · rw [hf] at h3 hres
    rw [if_pos (by rw [hres]; show (-1 : Int) < 0; decide)]
    exact h.keep h1 h3
  rw [hok] at hres
  rw [if_neg (by rw [hres]; decide)]
  have hm : MemInv bytes coherent r.1 :=
    MemInv.rekind (h3 ▸ hw) h1 fun pte _ hva _ => by rw [h3]; exact hk _ _ hva
  have hs := dvd_of_mod_eq_zero hargs.2
  have hpos : 0 < rounded := by
    unfold mmapRoundLength at hround
    split at hround
    · exact absurd hround (by simp)
    · rw [← some.inj hround]
      unfold pgroundup pgrounddown
      have := mod_lt (length + pgsize - 1) pgsize_pos
      omega
  have hmax : address + rounded ≤ maxva := by
    have : userStackTop ≤ maxva := by decide
    omega
  obtain ⟨hv1, hv2⟩ := mmapPtePermissions_valid (of_decide_eq_true hargs.1)
  obtain ⟨h4, h5, h6⟩ := hm.inv.vmProtectUserRange hm.world MemInv.knows proc
    (Nat.lt_add_of_pos_right hpos) hs (Nat.dvd_add hs (mmapRoundLength_dvd hround)) hmax hv1 hv2
  rw [if_pos h4]
  exact hm.keep h5 h6

omit [DecidableEq Proc] in
/-- **`sys_linux_msync`.** -/
theorem MemInv.sysLinuxMsync (address length flags : Nat) :
    MemInv bytes coherent (sysLinuxMsync s proc address length flags).1 := by
  have hloop : ∀ (l : List VmArea) (s : Machine Proc), MemInv bytes coherent s →
      MemInv bytes coherent (msyncLoop s l).1 := by
    intro l
    induction l with
    | nil => intro s h; exact h
    | cons area l ih =>
      intro s h
      unfold msyncLoop
      split
      · rename_i file _ _
        split
        · obtain ⟨hok, h2, h3, _⟩ := h.inv.pageCacheWritebackInode file.inode
          simp only [hok, if_true]
          exact ih _ (h.keep h2 h3.vmas)
        · exact ih s h
      · exact ih s h
  unfold Mm.sysLinuxMsync
  split
  · exact h
  simp only
  split
  · exact h
  · split
    · exact h
    · exact hloop _ s h

end

end Caffeinix.Mm
