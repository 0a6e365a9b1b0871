import Caffeinix.Mm.Primitives

/-!
# `Mm.Entries` — the invariant through changes of the page cache

Releasing, marking and inserting entries, write-back of an entry, and the loops over entries: reclaim,
write-back, eviction. An entry may go only if nobody has its page mapped and, where the bytes of files are
claimed, only with the file up to date.
-/

namespace Caffeinix.Mm

open Nat List Vma CacheEntry Machine
open Prod (mk_inj)
open Multiset (add_cons cons_add)
open Function (update update_of_ne update_self)

variable {Proc : Type} {g : Ghost Proc} {s s' : Machine Proc} {hand : Multiset Page}
  {page : Page} {pte : Pte Proc} {entry : CacheEntry}

/-! ## One entry -/

variable {x inode i : Nat} {other new : CacheEntry}

/-- The page of an address below the end of a file that has an entry. -/
theorem byte_of_entry (hk : entry.key = (entry.inode, pgrounddown x)) : entry.offset + x % pgsize = x := by
  have hoff : entry.offset = pgrounddown x := (mk_inj.mp hk).2
  rw [hoff]
  unfold pgrounddown
  have := mod_le x pgsize
  omega

/-- What an entry must be to stand in the cache. -/
structure Fits (g : Ghost Proc) (s : Machine Proc) (entry : CacheEntry) : Prop where
  ok : EntryOk s.files s.canWrite entry
  shared : ∀ pte ∈ s.ptes, g.kind pte.proc pte.va = some .sharedAnon → entry.page ≠ pte.page
  tracked : ∀ pte ∈ s.ptes, pte.perm.w = true → entry.page = pte.page → entry.writebackMapped = true
  apart : ∀ a ∈ s.anon, entry.page ≠ a.page
  clean : g.coherent → entry.dirty = false → entry.writebackMapped = false → Synced s entry
  cached : g.coherent → ∀ i < pgsize, entry.offset + i < (s.files entry.inode).size →
    s.data entry.page i = g.bytes entry.inode (entry.offset + i)

section
variable (h : Inv g s hand)
include h

section
variable (he : entry ∈ s.cache)
include he

theorem Inv.fits : Fits g s entry where
  ok := h.entries entry he
  shared := fun pte hp hk => (h.mapped pte hp).sharedAnon hk entry he
  tracked := fun pte hp hw => (h.mapped pte hp).tracked hw entry he
  apart := fun a ha => h.anonApart a ha entry he
  clean := fun hc => h.clean hc entry he
  cached := fun hc => h.cached hc entry he

omit he in
/-- **The list changes**: what stands in it fits, and what has gone is mapped nowhere and in its file. -/
theorem Inv.recache {cache : List CacheEntry} {hand' : Multiset Page}
    (hcounted : Counted s.refs (hand' + ({ s with cache := cache } : Machine Proc).held))
    (hkeys : Keyed CacheEntry.key cache) (hpages : Keyed CacheEntry.page cache)
    (hnew : ∀ entry ∈ cache, Fits g s entry)
    (hold : ∀ entry ∈ s.cache, (∃ new ∈ cache, new.key = entry.key ∧ new.page = entry.page) ∨
      s.refs entry.page = 1 ∧ (g.coherent → Synced s entry)) : Inv g { s with cache := cache } hand' :=
  { h with
    counted := hcounted
    mapped := fun pte hp => by
      have hm := h.mapped pte hp
      refine { hm with
        sharedFile := fun inode offset hk => ?_
        sharedAnon := fun hk entry he => (hnew entry he).shared pte hp hk
        tracked := fun hw entry he => (hnew entry he).tracked pte hp hw }
      obtain ⟨entry, he, hkey, hpage⟩ := hm.sharedFile inode offset hk
      rcases hold entry he with ⟨new, hn, hk, hp'⟩ | ⟨hone, -⟩
      · exact ⟨new, hn, hk.trans hkey, hp'.trans hpage⟩
      · exact absurd hpage.symm (h.sole_entry he hone pte hp)
    cacheKeys := hkeys
    cachePages := hpages
    entries := fun entry he => (hnew entry he).ok
    anonApart := fun a ha entry he => (hnew entry he).apart a ha
    clean := fun hc entry he => (hnew entry he).clean hc
    cached := fun hc entry he => (hnew entry he).cached hc
    uncached := fun hc inode x hx hnone => by
      by_cases hwas : ∃ entry ∈ s.cache, entry.key = (inode, pgrounddown x)
      · -- the byte was an entry's
        obtain ⟨entry, he, hkey⟩ := hwas
        rcases hold entry he with ⟨new, hn, hk, -⟩ | ⟨-, hsync⟩
        · exact absurd (hk.trans hkey) (hnone new hn)
        obtain ⟨hinode, -⟩ := mk_inj.mp hkey
        have hbyte : entry.offset + x % pgsize = x := byte_of_entry (by rw [hinode]; exact hkey)
        have hlt := mod_lt x pgsize_pos
        have h1 := hsync hc (x % pgsize) hlt (by rw [hbyte, hinode]; exact hx)
        have h2 := h.cached hc entry he (x % pgsize) hlt (by rw [hbyte, hinode]; exact hx)
        rw [hbyte, hinode] at h1 h2
        exact h1.symm.trans h2
      · exact h.uncached hc inode x hx fun entry he hk => hwas ⟨entry, he, hk⟩ }

section
variable (hone : s.refs entry.page = 1) (hsync : g.coherent → Synced s entry)
include hone hsync

/-- **An entry leaves the list**: nobody has its page mapped, and the file has its bytes. -/
theorem Inv.removeEntry : Inv g { s with cache := s.cache.erase entry } (entry.page ::ₘ hand) := by
  have hcounted := h.counted
  rw [held_of_entry he, add_cons, ← cons_add] at hcounted
  refine h.recache hcounted (h.cacheKeys.erase entry) (h.cachePages.erase entry)
    (fun other ho => h.fits (mem_of_mem_erase ho)) fun other ho => ?_
  by_cases heq : other = entry
  · exact .inr (heq ▸ ⟨hone, hsync⟩)
  · exact .inl ⟨other, h.cacheKeys.mem_erase.mpr ⟨heq, ho⟩, rfl, rfl⟩

/-- **`page_cache_release`.** -/
theorem Inv.pageCacheRelease [DecidableEq Proc] : Inv g (pageCacheRelease s entry) hand :=
  (h.removeEntry he hone hsync).pfree

end

omit h in
theorem release_reclaims : Reclaims s (pageCacheRelease s entry) where
  ptes := by unfold pageCacheRelease; rw [pfree_ptes]
  cache := fun other ho => by
    unfold pageCacheRelease at ho
    rw [pfree_cache] at ho
    exact mem_of_mem_erase ho
  anon := by unfold pageCacheRelease; rw [pfree_anon]
  vmas := by unfold pageCacheRelease; rw [pfree_vmas]
  files := by unfold pageCacheRelease; rw [pfree_files]
  pins := by unfold pageCacheRelease; rw [pfree_pins]
  canRead := by unfold pageCacheRelease; rw [pfree_canRead]
  refs := fun page _ hc => by
    unfold pageCacheRelease
    rw [pfree_refs_of_ne (Ne.symm (hc entry he))]

omit h in
omit he in
/-- The bytes of an entry do not change while other entries go. -/
theorem synced_release : Synced (pageCacheRelease s entry) other ↔ Synced s other := by
  unfold Synced pageCacheRelease
  rw [pfree_files, pfree_data]

omit h in
theorem setEntry_mem :
    other ∈ (s.setEntry entry new).cache ↔ other = new ∨ other ≠ entry ∧ other ∈ s.cache := mem_replace he

/-- **An entry gets new marks.** The mark for write-back may go only if nobody has the page mapped, and both
    marks may be clear only with the file up to date. -/
theorem Inv.setEntry (hkey : new.key = entry.key) (hpage : new.page = entry.page)
    (hok : EntryOk s.files s.canWrite new)
    (htrack : new.writebackMapped = true ∨ s.refs entry.page = 1 ∨ new.writebackMapped = entry.writebackMapped)
    (hclean : g.coherent → new.dirty = false → new.writebackMapped = false → Synced s new) :
    Inv g (s.setEntry entry new) hand := by
  obtain ⟨hinode, hoffset⟩ := mk_inj.mp hkey
  have hcongr : ∀ {α : Type} (f : CacheEntry → α), f new = f entry →
      ∀ x ∈ s.cache, f (if x = entry then new else x) = f x := by
    intro α f hf x _
    split
    · rename_i hx
      rw [hf, hx]
    · rfl
  have hheld : (s.setEntry entry new).held = s.held := by
    unfold Machine.held Machine.setEntry
    rw [refsOf_map (hcongr CacheEntry.page hpage)]
  refine h.recache (hheld ▸ h.counted) (h.cacheKeys.map (hcongr CacheEntry.key hkey))
    (h.cachePages.map (hcongr CacheEntry.page hpage)) (fun other ho => ?_) fun other ho => .inl ?_
  · rcases (setEntry_mem he).mp ho with rfl | ⟨-, ho⟩
    · have hfits := h.fits he
      refine ⟨hok, hpage ▸ hfits.shared, fun pte hp hw hpte => ?_, hpage ▸ hfits.apart, hclean, ?_⟩
      · rw [hpage] at hpte
        rcases htrack with ht | hone | ht
        · exact ht
        · exact absurd hpte.symm (h.sole_entry he hone pte hp)
        · rw [ht]
          exact hfits.tracked pte hp hw hpte
      · rw [hpage, hinode, hoffset]
        exact hfits.cached
    · exact h.fits ho
  · by_cases heq : other = entry
    · exact ⟨new, (setEntry_mem he).mpr (.inl rfl), heq ▸ hkey, heq ▸ hpage⟩
    · exact ⟨other, (setEntry_mem he).mpr (.inr ⟨heq, ho⟩), rfl, rfl⟩

/-- The order of the list does not matter. -/
theorem Inv.toFront : Inv g (s.toFront entry) hand := by
  have hperm : (s.toFront entry).cache.Perm s.cache := (perm_cons_erase he).symm
  have hmem : ∀ other, other ∈ (s.toFront entry).cache ↔ other ∈ s.cache := fun other => hperm.mem_iff
  have hheld : (s.toFront entry).held = s.held := by
    have hrefs : refsOf CacheEntry.page (s.toFront entry).cache = refsOf CacheEntry.page s.cache :=
      (refsOf_erase he).symm
    unfold Machine.held
    rw [hrefs]
    rfl
  exact h.recache (hheld ▸ h.counted) (h.cacheKeys.perm hperm) (h.cachePages.perm hperm)
    (fun other ho => h.fits ((hmem other).mp ho)) fun other ho => .inl ⟨other, (hmem other).mpr ho, rfl, rfl⟩

end

omit h in
/-- **A page read from the file goes into the cache.** -/
theorem Inv.insertEntry {file : VfsFile} {offset bytes : Nat} (h : Inv g s (page ::ₘ hand))
    (hone : s.refs page = 1) (hkey : ∀ entry ∈ s.cache, entry.key ≠ (file.inode, offset))
    (hpage : pgsize ∣ offset) (hbelow : offset < (s.files file.inode).size)
    (hbytes : ∀ i < pgsize, offset + i < (s.files file.inode).size → i < bytes) :
    Inv g (insertEntry s file offset bytes page) hand := by
  obtain ⟨hptes, hcache, hanon, _⟩ := h.fresh hone
  have hset := h.setData (fun i => if i < bytes then (s.files file.inode).data (offset + i) else 0) hcache
  have hsync : ∀ i < pgsize, offset + i < (s.files file.inode).size →
      (Mm.insertEntry s file offset bytes page).data page i = (s.files file.inode).data (offset + i) := by
    intro i hi hx
    show update s.data page _ page i = _
    rw [update_self, if_pos (hbytes i hi hx)]
  have hheld : (Mm.insertEntry s file offset bytes page).held = page ::ₘ s.held := by
    unfold Machine.held Mm.insertEntry Machine.setData newEntry
    simp only [refsOf_cons, cons_add, add_cons]
  refine hset.recache ?_ (keyed_cons.mpr ⟨hkey, h.cacheKeys⟩) (keyed_cons.mpr ⟨hcache, h.cachePages⟩)
    (fun other ho => ?_) fun other ho => .inl ⟨other, mem_cons_of_mem _ ho, rfl, rfl⟩
  · show Counted s.refs (hand + (Mm.insertEntry s file offset bytes page).held)
    rw [hheld, add_cons, ← cons_add]
    exact h.counted
  · rcases mem_cons.mp ho with rfl | ho
    · refine ⟨⟨hpage, hbelow, rfl, fun hd => by simp [newEntry] at hd⟩, fun pte hp _ => Ne.symm (hptes pte hp),
        fun pte hp _ hpte => absurd hpte (Ne.symm (hptes pte hp)), fun a ha => Ne.symm (hanon a ha),
        fun _ _ _ => hsync, fun hc i hi hx => ?_⟩
      -- the bytes come from the file, which had them as long as the page was not cached
      refine (hsync i hi hx).trans (h.uncached hc file.inode (offset + i) hx fun entry he hk => ?_)
      have hround : pgrounddown (offset + i) = offset := by
        obtain ⟨n, rfl⟩ := hpage
        unfold pgrounddown
        rw [mul_add_mod, mod_eq_of_lt hi]
        omega
      rw [hround] at hk
      exact hkey entry he hk
    · exact hset.fits ho

/-! ## Reclaim -/

omit h in
theorem clean_iff : entry.clean = true ↔
    entry.dirty = false ∧ entry.writebackMapped = false ∧ entry.evicting = false := by
  unfold clean
  simp only [Bool.and_eq_true, Bool.not_eq_true', and_assoc]

omit h in
/-- The loop of `page_cache_reclaim_locked` releases clean entries whose page nobody has mapped. -/
theorem Inv.pageCacheReclaimLoop [DecidableEq Proc] (target : Nat) (l : List CacheEntry) :
    ∀ (s : Machine Proc) (n : Nat), Inv g s hand → l.Nodup → (∀ entry ∈ l, entry ∈ s.cache) →
    Inv g (pageCacheReclaimLoop target s n l).1 hand ∧ Reclaims s (pageCacheReclaimLoop target s n l).1 := by
  induction l with
  | nil => intro s n h _ _; exact ⟨h, .refl s⟩
  | cons entry l ih =>
    intro s n h hnodup hsub
    obtain ⟨hnot, hnodup⟩ := nodup_cons.mp hnodup
    have he := hsub entry mem_cons_self
    unfold Mm.pageCacheReclaimLoop
    split
    · exact ⟨h, .refl s⟩
    split
    · exact ih s n h hnodup fun other ho => hsub other (mem_cons_of_mem _ ho)
    rename_i hrel
    simp only [Bool.or_eq_true, Bool.not_eq_true', decide_eq_true_eq, not_or, Bool.not_eq_false,
      not_not] at hrel
    obtain ⟨hd, hw, _⟩ := clean_iff.mp hrel.1
    rw [h.pallocRefcount_eq] at hrel
    obtain ⟨h1, h2⟩ := ih (Mm.pageCacheRelease s entry) (n + 1)
      (h.pageCacheRelease he hrel.2 fun hc => h.clean hc entry he hd hw) hnodup fun other ho => by
        unfold Mm.pageCacheRelease
        rw [pfree_cache]
        exact (mem_erase_of_ne fun (heq : other = entry) => hnot (heq ▸ ho)).mpr
          (hsub other (mem_cons_of_mem _ ho))
    exact ⟨h1, (release_reclaims he).trans h2⟩

/-- **`page_cache_reclaim`.** -/
theorem Inv.pageCacheReclaim [DecidableEq Proc] (target : Nat) :
    Inv g (pageCacheReclaim s target).1 hand ∧ Reclaims s (pageCacheReclaim s target).1 :=
  Inv.pageCacheReclaimLoop target _ s 0 h (nodup_reverse.mpr h.cacheKeys.nodup) fun _ he =>
    mem_reverse.mp he

/-- **`page_cache_select_clean_locked`.** -/
theorem Inv.pageCacheSelectCleanLocked :
    Inv g (pageCacheSelectCleanLocked s) hand ∧ (pageCacheSelectCleanLocked s).vmas = s.vmas := by
  unfold Mm.pageCacheSelectCleanLocked
  split
  · exact ⟨h, rfl⟩
  rename_i entry hfind
  have he : entry ∈ s.cache := mem_reverse.mp (mem_of_find?_eq_some hfind)
  have hok := h.entries entry he
  exact ⟨h.setEntry he rfl rfl ⟨hok.page, hok.below, hok.file, hok.writable⟩ (.inr (.inr rfl))
    fun hc hd hw => h.clean hc entry he hd hw, rfl⟩

/-- **The end of a round of `page_cache_reclaim_mapped`**: what goes is clean and mapped nowhere, whatever
    happened since it was selected. -/
theorem Inv.pageCacheReclaimFinish [DecidableEq Proc] (he : entry ∈ s.cache) (blocked : Bool) :
    Inv g (pageCacheReclaimFinish s entry blocked) hand ∧
    (pageCacheReclaimFinish s entry blocked).vmas = s.vmas := by
  unfold Mm.pageCacheReclaimFinish
  split
  · have hok := h.entries entry he
    have hset : Inv g (s.setEntry entry { entry with evicting := false }) hand :=
      h.setEntry he rfl rfl ⟨hok.page, hok.below, hok.file, hok.writable⟩ (.inr (.inr rfl))
        fun hc hd hw => h.clean hc entry he hd hw
    exact ⟨hset.toFront ((setEntry_mem he).mpr (.inl rfl)), rfl⟩
  rename_i hgo
  simp only [Bool.or_eq_true, decide_eq_true_eq, not_or, Bool.not_eq_true, not_not] at hgo
  obtain ⟨⟨⟨_, hd⟩, hw⟩, hone⟩ := hgo
  rw [h.pallocRefcount_eq] at hone
  exact ⟨h.pageCacheRelease he hone fun hc => h.clean hc entry he hd hw, (release_reclaims he).vmas⟩

omit h in
theorem unmapped_iff : entry.unmapped s = true ↔ entry.dirty = false ∧ entry.writebackMapped = true ∧
    entry.evicting = false ∧ pallocRefcount s entry.page = 1 := by
  unfold unmapped
  simp only [Bool.and_eq_true, Bool.not_eq_true', decide_eq_true_eq, and_assoc]

/-- **`page_cache_reclaim_unmapped`** releases entries that are marked for write-back without writing them;
    the invariant survives if the file has their bytes. -/
theorem Inv.pageCacheReclaimUnmapped [DecidableEq Proc]
    (hsync : g.coherent → ∀ entry ∈ s.cache, entry.unmapped s = true → Synced s entry) :
    Inv g (pageCacheReclaimUnmapped s) hand ∧ Reclaims s (pageCacheReclaimUnmapped s) := by
  have hloop : ∀ (l : List CacheEntry) (s : Machine Proc), Inv g s hand → l.Nodup →
      (∀ entry ∈ l, entry ∈ s.cache) →
      (g.coherent → ∀ entry ∈ l, entry.unmapped s = true → Synced s entry) →
      Inv g (l.foldl (fun s entry => if entry.unmapped s then Mm.pageCacheRelease s entry else s) s) hand ∧
      Reclaims s (l.foldl (fun s entry => if entry.unmapped s then Mm.pageCacheRelease s entry else s) s) := by
    intro l
    induction l with
    | nil => intro s h _ _ _; exact ⟨h, .refl s⟩
    | cons entry l ih =>
      intro s h hnodup hsub hsync
      obtain ⟨hnot, hnodup⟩ := nodup_cons.mp hnodup
      have he := hsub entry mem_cons_self
      rw [foldl_cons]
      split_ifs with hu
      · have hone := (unmapped_iff.mp hu).2.2.2
        rw [h.pallocRefcount_eq] at hone
        obtain ⟨h1, h2⟩ := ih (Mm.pageCacheRelease s entry)
          (h.pageCacheRelease he hone fun hc => hsync hc entry mem_cons_self hu) hnodup
          (fun other ho => by
            unfold Mm.pageCacheRelease
            rw [pfree_cache]
            exact (mem_erase_of_ne fun (heq : other = entry) => hnot (heq ▸ ho)).mpr
              (hsub other (mem_cons_of_mem _ ho)))
          (fun hc other ho hu' => by
            -- the pages of the other entries keep their counts
            have hne : other.page ≠ entry.page := fun heq => hnot
              (h.cachePages.inj (hsub other (mem_cons_of_mem _ ho)) he heq ▸ ho)
            rw [synced_release]
            refine hsync hc other (mem_cons_of_mem _ ho) ?_
            rw [unmapped_iff] at hu' ⊢
            unfold Mm.pageCacheRelease at hu'
            rw [pallocRefcount_pfree_of_ne hne] at hu'
            exact hu')
        exact ⟨h1, (release_reclaims he).trans h2⟩
      · exact ih s h hnodup (fun other ho => hsub other (mem_cons_of_mem _ ho))
          fun hc other ho => hsync hc other (mem_cons_of_mem _ ho)
  exact hloop s.cache s h h.cacheKeys.nodup (fun _ he => he) hsync

end

/-! ## Write-back -/

/-- Everything an entry of this key has is in the file. -/
def SyncedAt (s : Machine Proc) (key : Nat × Nat) : Prop := ∀ entry ∈ s.cache, entry.key = key → Synced s entry

/-- Which page of which file stands where. -/
def CacheEntry.slot (entry : CacheEntry) : (Nat × Nat) × Page := (entry.key, entry.page)

/-- What write-back leaves alone. -/
structure WritesBack (s s' : Machine Proc) : Prop where
  ptes : s'.ptes = s.ptes
  vmas : s'.vmas = s.vmas
  anon : s'.anon = s.anon
  data : s'.data = s.data
  refs : s'.refs = s.refs
  size : ∀ inode, (s'.files inode).size = (s.files inode).size
  canRead : s'.canRead = s.canRead
  canWrite : s'.canWrite = s.canWrite
  slots : s'.cache.map slot = s.cache.map slot

theorem WritesBack.refl (s : Machine Proc) : WritesBack s s :=
  ⟨rfl, rfl, rfl, rfl, rfl, fun _ => rfl, rfl, rfl, rfl⟩

theorem WritesBack.trans {s'' : Machine Proc} (h : WritesBack s s') (h' : WritesBack s' s'') :
    WritesBack s s'' where
  ptes := h'.ptes.trans h.ptes
  vmas := h'.vmas.trans h.vmas
  anon := h'.anon.trans h.anon
  data := h'.data.trans h.data
  refs := h'.refs.trans h.refs
  size := fun inode => (h'.size inode).trans (h.size inode)
  canRead := h'.canRead.trans h.canRead
  canWrite := h'.canWrite.trans h.canWrite
  slots := h'.slots.trans h.slots

/-- An entry stands where one with its key and page stood before. -/
theorem WritesBack.before (h : WritesBack s s') (he : entry ∈ s'.cache) :
    ∃ before ∈ s.cache, before.key = entry.key ∧ before.page = entry.page := by
  have hslot : entry.slot ∈ s.cache.map slot := h.slots ▸ mem_map_of_mem he
  obtain ⟨before, hb, hk⟩ := mem_map.mp hslot
  exact ⟨before, hb, mk_inj.mp hk⟩

theorem map_setEntry {α : Type} {f : CacheEntry → α} (hf : f new = f entry) :
    (s.setEntry entry new).cache.map f = s.cache.map f := by
  unfold Machine.setEntry
  simp only [map_map]
  refine map_congr_left fun x _ => ?_
  show f (if x = entry then new else x) = f x
  split
  · rename_i hx
    rw [hf, hx]
  · rfl

/-- The file of an entry with the bytes of its page. -/
def Machine.flush (s : Machine Proc) (entry : CacheEntry) : Machine Proc :=
  { s with
    files := update s.files entry.inode
      ((s.files entry.inode).write entry.offset
        (min pgsize ((s.files entry.inode).size - entry.offset)) 0 (s.data entry.page)) }

theorem flush_size (hok : EntryOk s.files s.canWrite entry) (inode : Nat) :
    ((s.flush entry).files inode).size = (s.files inode).size := by
  unfold flush
  by_cases hi : inode = entry.inode
  · rw [hi]
    simp only [update_self]
    have := hok.below
    show max _ _ = _
    omega
  · simp only [update_of_ne hi]

/-- The bytes of another page of the file, or of another file, do not change. -/
theorem flush_data_of_ne (h : (inode, pgrounddown x) ≠ entry.key) (hpage : pgsize ∣ entry.offset) :
    ((s.flush entry).files inode).data x = (s.files inode).data x := by
  unfold flush
  by_cases hi : inode = entry.inode
  · rw [hi]
    simp only [update_self]
    refine if_neg fun hx => h ?_
    rw [hi]
    refine mk_inj.mpr ⟨rfl, ?_⟩
    obtain ⟨n, hn⟩ := hpage
    have hlt : x - entry.offset < pgsize := by omega
    have hx' : x = pgsize * n + (x - entry.offset) := by omega
    unfold pgrounddown
    rw [hx', mul_add_mod, mod_eq_of_lt hlt, ← hn]
    omega
  · simp only [update_of_ne hi]

theorem flush_data_self (hi : i < pgsize) (hx : entry.offset + i < (s.files entry.inode).size) :
    ((s.flush entry).files entry.inode).data (entry.offset + i) = s.data entry.page i := by
  unfold flush
  simp only [update_self]
  show (if _ then _ else _) = _
  rw [if_pos (by omega), Nat.add_sub_cancel_left]

theorem flush_data_beyond (hx : (s.files inode).size ≤ x) :
    ((s.flush entry).files inode).data x = (s.files inode).data x := by
  unfold flush
  by_cases hi : inode = entry.inode
  · rw [hi] at hx ⊢
    simp only [update_self]
    exact if_neg (by omega)
  · simp only [update_of_ne hi]

/-- A byte of the page of one entry is not in the page of another. -/
theorem entry_byte_key (hok : EntryOk s.files s.canWrite other) (hi : i < pgsize) :
    (other.inode, pgrounddown (other.offset + i)) = other.key := by
  refine mk_inj.mpr ⟨rfl, ?_⟩
  obtain ⟨n, hn⟩ := hok.page
  unfold pgrounddown
  rw [hn, mul_add_mod, mod_eq_of_lt hi]
  omega

/-- Writing the page of one entry to the file does not desynchronise another. -/
theorem synced_flush (hok : EntryOk s.files s.canWrite other) (hok' : EntryOk s.files s.canWrite entry)
    (hne : other.key ≠ entry.key) (h : Synced s other) : Synced (s.flush entry) other := by
  intro i hi hx
  rw [flush_size hok'] at hx
  have hkey := entry_byte_key hok hi
  rw [flush_data_of_ne (by rw [hkey]; exact hne) hok'.page]
  exact h i hi hx

theorem synced_flush_self (hok : EntryOk s.files s.canWrite entry) : Synced (s.flush entry) entry := by
  intro i hi hx
  rw [flush_size hok] at hx
  exact (flush_data_self hi hx).symm

section
variable (h : Inv g s hand)
include h

/-- **The file gets the bytes of an entry.** -/
theorem Inv.flush (he : entry ∈ s.cache) : Inv g (s.flush entry) hand := by
  have hok := h.entries entry he
  refine { h with
    entries := fun other ho => ?_
    clean := fun hc other ho hd hw => ?_
    cached := fun hc other ho i hi hx => ?_
    uncached := fun hc inode x hx hnone => ?_
    zeros := fun hc inode x hx => ?_ }
  · have hother := h.entries other ho
    refine ⟨hother.page, ?_, hother.file, hother.writable⟩
    rw [flush_size hok]
    exact hother.below
  · by_cases heq : other = entry
    · rw [heq]
      exact synced_flush_self hok
    · exact synced_flush (h.entries other ho) hok (fun hk => heq (h.cacheKeys.inj ho he hk))
        (h.clean hc other ho hd hw)
  · rw [flush_size hok] at hx
    exact h.cached hc other ho i hi hx
  · rw [flush_size hok] at hx
    rw [flush_data_of_ne (Ne.symm (hnone entry he)) hok.page]
    exact h.uncached hc inode x hx hnone
  · rw [flush_size hok] at hx
    rw [flush_data_beyond hx]
    exact h.zeros hc inode x hx

/-- What `page_cache_writeback_entry` makes of an entry with a mark. -/
def Machine.written (s : Machine Proc) (entry : CacheEntry) : CacheEntry :=
  { entry with
    dirty := false
    writebackMapped := entry.writebackMapped && pallocRefcount s entry.page ≠ 1 }

theorem pageCacheWritebackEntry_eq (he : entry ∈ s.cache) :
    pageCacheWritebackEntry s entry =
      if entry.dirty = false ∧ entry.writebackMapped = false then (s, true)
      else ((s.flush entry).setEntry entry (s.written entry), true) := by
  have hok := h.entries entry he
  unfold pageCacheWritebackEntry
  by_cases hmarks : entry.dirty = false ∧ entry.writebackMapped = false
  · rw [if_pos hmarks, if_pos (by simp [hmarks])]
  have hmarked : entry.dirty = true ∨ entry.writebackMapped = true := by
    cases hd : entry.dirty with
    | true => exact .inl rfl
    | false => exact .inr (by simpa [hd] using hmarks)
  have hwritable := hok.writable hmarked
  rw [if_neg hmarks, if_neg (by simpa using hmarks), if_neg (by simp [hwritable])]
  simp only [hok.file]
  rw [if_neg (not_le.mpr hok.below)]
  rfl

/-- **`page_cache_writeback_entry`.** -/
theorem Inv.pageCacheWritebackEntry (he : entry ∈ s.cache) :
    let r := pageCacheWritebackEntry s entry
    r.2 = true ∧ Inv g r.1 hand ∧ WritesBack s r.1 ∧
    (∀ other, other ≠ entry → other ∈ s.cache → other ∈ r.1.cache) ∧ (g.coherent → SyncedAt r.1 entry.key) ∧
    (∀ key, SyncedAt s key → SyncedAt r.1 key) := by
  have hok := h.entries entry he
  rw [pageCacheWritebackEntry_eq h he]
  split
  · rename_i hmarks
    refine ⟨rfl, h, .refl s, fun _ _ ho => ho, fun hc other ho hk => ?_, fun _ hs => hs⟩
    rw [h.cacheKeys.inj ho he hk]
    exact h.clean hc entry he hmarks.1 hmarks.2
  have hflush := h.flush he
  have hsync : Synced ((s.flush entry).setEntry entry (s.written entry)) (s.written entry) :=
    fun i hi hx => synced_flush_self hok i hi hx
  have hmem : ∀ {other}, other ∈ ((s.flush entry).setEntry entry (s.written entry)).cache ↔
      other = s.written entry ∨ other ≠ entry ∧ other ∈ s.cache := setEntry_mem he
  refine ⟨rfl, hflush.setEntry he rfl rfl ⟨hok.page, (hflush.entries entry he).below, hok.file, ?_⟩ ?_
      fun _ _ _ => hsync,
    ⟨rfl, rfl, rfl, rfl, rfl, flush_size hok, rfl, rfl, map_setEntry rfl⟩,
    fun other hne ho => hmem.mpr (.inr ⟨hne, ho⟩), fun _ other ho hk => ?_,
    fun key hs other ho hk => ?_⟩
  · rintro (hd | hw)
    · exact absurd hd (by simp [written])
    · exact hok.writable (.inr (Bool.and_eq_true _ _ ▸ hw).1)
  · -- the mark goes only from a page that nobody has mapped
    by_cases hone : s.refs entry.page = 1
    · exact .inr (.inl hone)
    · refine .inr (.inr ?_)
      unfold written
      simp [h.pallocRefcount_eq, hone]
  · rcases hmem.mp ho with rfl | ⟨hne, ho⟩
    · exact hsync
    · exact absurd (h.cacheKeys.inj ho he hk) hne
  · rcases hmem.mp ho with rfl | ⟨hne, ho⟩
    · exact hsync
    · have hkey : other.key ≠ entry.key := fun hk' => hne (h.cacheKeys.inj ho he hk')
      exact synced_flush (h.entries other ho) hok hkey (hs other ho hk)

omit h in
/-- **Write-back of a list of entries.** -/
theorem Inv.pageCacheWritebackLoop (stop : Bool) (l : List CacheEntry) :
    ∀ s : Machine Proc,
    Inv g s hand → l.Nodup → (∀ entry ∈ l, entry ∈ s.cache) →
    let r := pageCacheWritebackLoop stop s l
    r.2 = true ∧ Inv g r.1 hand ∧ WritesBack s r.1 ∧ (g.coherent → ∀ entry ∈ l, SyncedAt r.1 entry.key) ∧
    (∀ key, SyncedAt s key → SyncedAt r.1 key) := by
  induction l with
  | nil =>
    intro s h _ _
    exact ⟨rfl, h, .refl s, fun _ entry he => absurd he not_mem_nil, fun _ hs => hs⟩
  | cons entry l ih =>
    intro s h hnodup hsub
    obtain ⟨hnot, hnodup⟩ := nodup_cons.mp hnodup
    have he := hsub entry mem_cons_self
    obtain ⟨hres, hinv, hframe, hkeep, hsync, hstay⟩ := h.pageCacheWritebackEntry he
    unfold Mm.pageCacheWritebackLoop
    simp only [hres, Bool.not_true, Bool.and_false, Bool.false_eq_true, if_false, Bool.true_and]
    obtain ⟨h1, h2, h3, h4, h5⟩ := ih _ hinv hnodup fun other ho =>
      hkeep other (fun heq => hnot (heq ▸ ho)) (hsub other (mem_cons_of_mem _ ho))
    refine ⟨h1, h2, hframe.trans h3, fun hc other ho => ?_, fun key hs => h5 key (hstay key hs)⟩
    rcases mem_cons.mp ho with rfl | ho
    · exact h5 _ (hsync hc)
    · exact h4 hc other ho

/-- **`page_cache_writeback_inode`**: afterwards the file has all bytes its cached pages have. -/
theorem Inv.pageCacheWritebackInode (inode : Nat) :
    let r := pageCacheWritebackInode s inode
    r.2 = true ∧ Inv g r.1 hand ∧ WritesBack s r.1 ∧ (g.coherent → ∀ entry ∈ r.1.cache, entry.inode = inode →
      Synced r.1 entry) := by
  obtain ⟨h1, h2, h3, h4, _⟩ := Inv.pageCacheWritebackLoop false
    (s.cache.filter fun entry => entry.inode = inode) s h (h.cacheKeys.nodup.filter _)
    fun entry he => (mem_filter.mp he).1
  refine ⟨h1, h2, h3, fun hc entry he hi => ?_⟩
  obtain ⟨before, hb, hk, _⟩ := h3.before he
  have hbi : before.inode = inode := (mk_inj.mp hk).1.trans hi
  exact h4 hc before (mem_filter.mpr ⟨hb, by simpa using hbi⟩) entry he hk.symm

/-- A file that has all bytes its cached pages have, has the bytes claimed. -/
theorem Inv.file_bytes (hc : g.coherent) (hsync : ∀ entry ∈ s.cache, entry.inode = inode → Synced s entry)
    (hx : x < (s.files inode).size) : (s.files inode).data x = g.bytes inode x := by
  by_cases hkey : ∃ entry ∈ s.cache, entry.key = (inode, pgrounddown x)
  · obtain ⟨entry, he, hk⟩ := hkey
    obtain rfl : entry.inode = inode := (mk_inj.mp hk).1
    have hbyte := byte_of_entry hk
    have hlt := mod_lt x pgsize_pos
    have h1 := hsync entry he rfl (x % pgsize) hlt (by rwa [hbyte])
    have h2 := h.cached hc entry he (x % pgsize) hlt (by rwa [hbyte])
    rw [hbyte] at h1 h2
    exact h1.symm.trans h2
  · exact h.uncached hc inode x hx fun entry he hk => hkey ⟨entry, he, hk⟩

theorem Inv.pageCacheWritebackSuper (superblock : Nat) :
    Inv g (pageCacheWritebackSuper s superblock).1 hand ∧ (pageCacheWritebackSuper s superblock).1.vmas = s.vmas := by
  obtain ⟨_, h2, h3, _⟩ := Inv.pageCacheWritebackLoop false
    (s.cache.filter fun entry => s.superblock entry.inode = superblock) s h (h.cacheKeys.nodup.filter _)
    fun _ he => (mem_filter.mp he).1
  exact ⟨h2, h3.vmas⟩

end

/-- The rest of the machine while entries go. -/
theorem foldl_pageCacheRelease {l : List CacheEntry} :
    ∀ s : Machine Proc,
    let r := l.foldl pageCacheRelease s
    r.cache = s.cache.diff l ∧ r.vmas = s.vmas ∧ r.files = s.files ∧ r.data = s.data ∧
    ∀ page, (∀ entry ∈ l, entry.page ≠ page) → r.refs page = s.refs page := by
  induction l with
  | nil => intro s; exact ⟨rfl, rfl, rfl, rfl, fun _ _ => rfl⟩
  | cons entry l ih =>
    intro s
    obtain ⟨h1, h2, h3, h4, h5⟩ := ih (pageCacheRelease s entry)
    rw [foldl_cons]
    refine ⟨?_, ?_, ?_, ?_, fun page hp => ?_⟩
    · rw [h1, diff_cons]
      unfold pageCacheRelease
      rw [pfree_cache]
    · rw [h2]; unfold pageCacheRelease; rw [pfree_vmas]
    · rw [h3]; unfold pageCacheRelease; rw [pfree_files]
    · rw [h4]; unfold pageCacheRelease; rw [pfree_data]
    · rw [h5 page fun other ho => hp other (mem_cons_of_mem _ ho)]
      unfold pageCacheRelease
      rw [pfree_refs_of_ne (Ne.symm (hp entry mem_cons_self))]

/-- Releasing a list of entries that nobody has mapped and that are in their files. -/
theorem Inv.releaseAll [DecidableEq Proc] (l : List CacheEntry) : ∀ s : Machine Proc, Inv g s hand → l.Nodup →
    (∀ entry ∈ l, entry ∈ s.cache ∧ s.refs entry.page = 1) →
    (g.coherent → ∀ entry ∈ l, Synced s entry) → Inv g (l.foldl Mm.pageCacheRelease s) hand := by
  induction l with
  | nil => intro s h _ _ _; exact h
  | cons entry l ih =>
    intro s h hnodup hsub hsync
    obtain ⟨hnot, hnodup⟩ := nodup_cons.mp hnodup
    obtain ⟨he, hone⟩ := hsub entry mem_cons_self
    refine ih _ (h.pageCacheRelease he hone fun hc => hsync hc entry mem_cons_self) hnodup
      (fun other ho => ?_) fun hc other ho => synced_release.mpr
        (hsync hc other (mem_cons_of_mem _ ho))
    obtain ⟨ho', hone'⟩ := hsub other (mem_cons_of_mem _ ho)
    have hne : other ≠ entry := fun heq => hnot (heq ▸ ho)
    unfold Mm.pageCacheRelease
    rw [pfree_cache, pfree_refs_of_ne fun heq => hne (h.cachePages.inj ho' he heq)]
    exact ⟨(mem_erase_of_ne hne).mpr ho', hone'⟩

/-- **`page_cache_evict_super`.** -/
theorem Inv.pageCacheEvictSuper [DecidableEq Proc] (h : Inv g s hand) (superblock : Nat) :
    Inv g (pageCacheEvictSuper s superblock).1 hand ∧ (pageCacheEvictSuper s superblock).1.vmas = s.vmas := by
  unfold Mm.pageCacheEvictSuper
  simp only
  split
  · exact ⟨h, rfl⟩
  rename_i hfree
  obtain ⟨hres, hinv, hframe, hsync, _⟩ := Inv.pageCacheWritebackLoop true
    (s.cache.filter fun entry => s.superblock entry.inode = superblock) s h (h.cacheKeys.nodup.filter _)
    fun entry he => (mem_filter.mp he).1
  rw [hres, if_neg (by simp)]
  -- what goes stands where an entry of the superblock stood that nobody had mapped
  have hbefore : ∀ entry ∈ (Mm.pageCacheWritebackLoop true s
      (s.cache.filter fun entry => s.superblock entry.inode = superblock)).1.cache.filter
        (fun entry => s.superblock entry.inode = superblock),
      ∃ b ∈ s.cache.filter fun entry => s.superblock entry.inode = superblock,
        b.key = entry.key ∧ b.page = entry.page := by
    intro entry he
    obtain ⟨hm, hs⟩ := mem_filter.mp he
    obtain ⟨b, hb, hk, hp⟩ := hframe.before hm
    refine ⟨b, mem_filter.mpr ⟨hb, ?_⟩, hk, hp⟩
    rw [(mk_inj.mp hk).1]
    exact hs
  refine ⟨.releaseAll _ _ hinv (hinv.cacheKeys.nodup.filter _) (fun entry he => ?_) fun hc entry he => ?_,
    (foldl_pageCacheRelease _).2.1.trans hframe.vmas⟩
  · obtain ⟨b, hb, _, hp⟩ := hbefore entry he
    refine ⟨(mem_filter.mp he).1, ?_⟩
    have hone : pallocRefcount s b.page = 1 := by
      by_contra hne
      exact hfree (any_eq_true.mpr ⟨b, hb, by simp [hne]⟩)
    rw [hframe.refs, ← hp, ← h.pallocRefcount_eq]
    exact hone
  · obtain ⟨b, hb, hk, _⟩ := hbefore entry he
    exact hsync hc b hb entry (mem_filter.mp he).1 hk.symm

end Caffeinix.Mm
