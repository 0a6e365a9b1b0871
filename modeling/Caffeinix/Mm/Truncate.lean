import Caffeinix.Mm.Sizes

/-!
# `Mm.Truncate` — the invariant through `fallocate` and `truncate`

A growing `truncate` clears the rest of the last cached page, a shrinking one unmaps and releases what lies
behind the new end and clears the rest of the page the new end is in. The file system changes the file first
and the cache follows; since the cache part reads no file, the proof may let the entries go first
(`Machine.withFiles`).
-/

namespace Caffeinix.Mm

open List Vma Option Ghost Machine
open Function (update update_of_ne update_self)

variable {Proc : Type} {g : Ghost Proc} {s s' : Machine Proc}
  {hand : Multiset Page} {pte : Pte Proc} {entry : CacheEntry} {inode : Nat}

/-! ## `fallocate` -/

variable {size : Nat} {last : CacheEntry} {l : List CacheEntry}

/-- Write-back leaves what stands behind the end of a file. -/
theorem TailZero.writesBack {size' : Nat} (h : TailZero s inode size size') (hw : WritesBack s s') :
    TailZero s' inode size size' := by
  intro entry he hin i hi h1 h2
  obtain ⟨before, hb, hkey, hpage⟩ := hw.before he
  obtain ⟨hbi, hbo⟩ := Prod.mk_inj.mp hkey
  rw [hw.data, ← hpage]
  exact h before hb (hbi.trans hin) i hi (by omega) (by omega)

/-- **`vfs_fallocate`.** -/
theorem Inv.vfsFallocate (h : Inv g s hand) (file : VfsFile) (offset length : Nat)
    (htail : g.coherent → TailZero s file.inode (s.files file.inode).size (offset + length)) :
    Wrote g s (vfsFallocate s file offset length).1 hand file.inode 0 0 [] := by
  unfold Mm.vfsFallocate
  split
  · exact h.wroteNothing rfl rfl _
  split
  · exact h.wroteNothing rfl rfl _
  obtain ⟨hok, iB, fB, _⟩ := h.pageCacheWritebackInode file.inode
  generalize Mm.pageCacheWritebackInode s file.inode = B at *
  obtain ⟨sB, back⟩ := B
  simp only at hok iB fB ⊢
  have hsize := fB.size file.inode
  -- write-back does not change the size, nor do the calls that may fail
  have hnothing : ∀ rest, Wrote g s { sB with outcomes := rest } hand file.inode 0 0 [] := fun rest => by
    refine ⟨?_, fB.vmas, by rw [hsize]⟩
    rw [hsize, take_zero, rewritten_nothing le_rfl, set_self]
    exact { iB with }
  rw [hok]
  obtain ⟨rest, hrest⟩ := outcome_fst sB
  generalize Mm.outcome sB = P at *
  obtain ⟨sP, priv⟩ := P
  obtain rfl := hrest
  simp only [Bool.not_true, Bool.false_eq_true, if_false]
  split
  · exact hnothing rest
  obtain ⟨rest', hrest'⟩ := outcome_fst ({ sB with outcomes := rest } : Machine Proc)
  generalize Mm.outcome ({ sB with outcomes := rest } : Machine Proc) = Q at *
  obtain ⟨sQ, pages⟩ := Q
  obtain rfl := hrest'
  split
  · exact hnothing rest'
  have hQ : Inv g { sB with outcomes := rest' } hand := { iB with }
  have hgrow := hQ.grow ((sB.files file.inode).fallocate offset length) (Nat.le_max_left _ _)
    (fun _ x => rfl) (fun hc => ?_) 0
  · refine ⟨?_, fB.vmas, ?_⟩
    · simp only [update_self, take_zero]
      rw [← hsize]
      exact hgrow
    · simp only [update_self]
      rw [← hsize]
      exact Nat.le_max_left _ _
  · have htail' := (htail hc).writesBack fB
    intro entry he hin i hi h1 h2
    have h1 : (sB.files file.inode).size ≤ entry.offset + i := h1
    have h2 : entry.offset + i < max (sB.files file.inode).size (offset + length) := h2
    exact htail' entry he hin i hi (by omega) (by omega)

/-! ## Growing -/

/-- Bytes behind the end of its file do not matter in a cached page. -/
theorem Inv.setTail (h : Inv g s hand) (he : entry ∈ s.cache) (data : Nat → UInt8)
    (hd : ∀ i < pgsize, entry.offset + i < (s.files entry.inode).size → data i = s.data entry.page i) :
    Inv g (s.setData entry.page data) hand := by
  have hdata : ∀ other ∈ s.cache, ∀ i < pgsize, other.offset + i < (s.files other.inode).size →
      (s.setData entry.page data).data other.page i = s.data other.page i := by
    intro other ho i hi hx
    show update s.data entry.page data other.page i = _
    by_cases hp : other.page = entry.page
    · obtain rfl := h.cachePages.inj ho he hp
      rw [update_self]
      exact hd i hi hx
    · rw [update_of_ne hp]
  exact { h with
    clean := fun hc other ho hd hw i hi hx => (hdata other ho i hi hx).trans (h.clean hc other ho hd hw i hi hx)
    cached := fun hc other ho i hi hx => (hdata other ho i hi hx).trans (h.cached hc other ho i hi hx) }

/-- An entry that reaches behind the end of its file is the last one. -/
theorem Inv.last_page (h : Inv g s hand) (he : entry ∈ s.cache) {i : Nat} (hi : i < pgsize)
    (hx : (s.files entry.inode).size ≤ entry.offset + i) :
    entry.offset = pgrounddown (s.files entry.inode).size ∧ (s.files entry.inode).size % pgsize ≠ 0 := by
  have hbelow := (h.entries entry he).below
  obtain ⟨n, hn⟩ := (h.entries entry he).page
  unfold pgrounddown pgsize at *
  omega

/-- **A growing `page_cache_truncate`** clears what stands behind the old end. -/
theorem Inv.pageCacheTruncate_grow {f : File} (h : Inv g s hand) (hsize : (s.files inode).size ≤ size)
    (hf : f.size = size) (hdata : ∀ x, f.data x = (s.files inode).data x)
    (hrun : pageCacheTruncate { s with files := update s.files inode f } inode (s.files inode).size size = some s') :
    Inv (g.set inode (rewritten (g.bytes inode) (s.files inode).size size 0 [])) s' hand ∧
    s'.vmas = s.vmas ∧ s'.files = update s.files inode f := by
  subst hf
  have hgrow : ∀ t : Machine Proc, Inv g t hand → t.files = s.files →
      TailZero t inode (s.files inode).size f.size →
      Inv (g.set inode (rewritten (g.bytes inode) (s.files inode).size f.size 0 []))
        { t with files := update s.files inode f } hand := by
    intro t ht htf htail
    have := ht.grow f (by rw [htf]; exact hsize) (fun _ => by rw [htf]; exact hdata) (fun _ => by rwa [htf]) 0
    rwa [htf] at this
  unfold Mm.pageCacheTruncate at hrun
  rw [if_pos hsize] at hrun
  split at hrun
  · rename_i hnone
    obtain rfl := some.inj hrun
    refine ⟨hgrow s h rfl fun entry he hin i hi h1 h2 => ?_, rfl, rfl⟩
    -- no cached page reaches behind the old end
    obtain ⟨_, hmod⟩ := h.last_page he hi (by rw [hin]; exact h1)
    rw [hin] at hmod
    simp only [Bool.or_eq_true, decide_eq_true_eq] at hnone
    omega
  · split at hrun
    · rename_i hfind
      obtain rfl := some.inj hrun
      refine ⟨hgrow s h rfl fun entry he hin i hi h1 h2 => ?_, rfl, rfl⟩
      obtain ⟨hoff, _⟩ := h.last_page he hi (by rw [hin]; exact h1)
      rw [hin] at hoff
      exact absurd (Prod.ext hin hoff) (pageCacheFind_eq_none.mp hfind entry he)
    rename_i last hfind
    split at hrun
    · exact absurd hrun (by simp)
    obtain rfl := some.inj hrun
    obtain ⟨hl, hkey⟩ := h.pageCacheFind_eq_some.mp (show s.pageCacheFind inode _ = some last from hfind)
    obtain ⟨hli, hlo⟩ := Prod.mk_inj.mp hkey
    have hrel : last.offset + (s.files inode).size % pgsize = (s.files inode).size := by
      rw [hlo]
      exact Nat.sub_add_cancel (Nat.mod_le _ _)
    have hclear := h.setTail hl (fun i =>
      if (decide ((s.files inode).size % pgsize ≤ i) && decide (i < min pgsize (f.size - last.offset))) = true
      then 0 else s.data last.page i) fun i hi hx => by
        rw [hli] at hx
        refine if_neg ?_
        simp only [Bool.and_eq_true, decide_eq_true_eq, not_and]
        omega
    refine ⟨hgrow _ hclear rfl fun entry he hin i hi h1 h2 => ?_, rfl, rfl⟩
    obtain ⟨hoff, _⟩ := h.last_page he hi (by rw [hin]; exact h1)
    rw [hin] at hoff
    obtain rfl := h.cacheKeys.inj he hl (Prod.ext (hin.trans hli.symm) (hoff.trans hlo.symm))
    show update s.data entry.page _ entry.page i = 0
    rw [update_self]
    refine if_pos ?_
    simp only [Bool.and_eq_true, decide_eq_true_eq]
    omega

/-! ## Shrinking -/

/-- The machine with other files. -/
def Machine.withFiles (s : Machine Proc) (files : Nat → File) : Machine Proc := { s with files := files }

theorem unmapPte_withFiles [DecidableEq Proc] (files : Nat → File) (s : Machine Proc) (pte : Pte Proc) :
    unmapPte (s.withFiles files) pte = (unmapPte s pte).withFiles files := by
  unfold unmapPte clearPte pfree withFiles
  split <;> rfl

theorem truncateEntry_withFiles (files : Nat → File) (size : Nat) (s : Machine Proc) (entry : CacheEntry) :
    truncateEntry size (s.withFiles files) entry = (truncateEntry size s entry).withFiles files := by
  unfold truncateEntry
  split
  · unfold pageCacheRelease pfree withFiles
    split <;> rfl
  · rfl

theorem truncateEntry_vmas (hlast : entry.offset < pgroundup size) :
    (truncateEntry size s entry).vmas = s.vmas := by
  unfold truncateEntry
  rw [if_neg (by omega)]
  rfl

theorem truncateEntry_files (hlast : entry.offset < pgroundup size) :
    (truncateEntry size s entry).files = s.files := by
  unfold truncateEntry
  rw [if_neg (by omega)]
  rfl

theorem foldl_truncateEntry_withFiles (files : Nat → File) (size : Nat) (l : List CacheEntry)
    (s : Machine Proc) : l.foldl (truncateEntry size) (s.withFiles files) =
      (l.foldl (truncateEntry size) s).withFiles files := by
  induction l generalizing s with
  | nil => rw [foldl_nil, foldl_nil]
  | cons entry l ih => rw [foldl_cons, foldl_cons, truncateEntry_withFiles, ih]

theorem erase_replace {old new e : CacheEntry} (hold : e ≠ old) (hnew : e ≠ new) (l : List CacheEntry) :
    (l.map fun x => if x = old then new else x).erase e = (l.erase e).map fun x => if x = old then new else x := by
  induction l with
  | nil => rfl
  | cons x l ih =>
    rw [map_cons]
    by_cases hx : x = e
    · subst hx
      rw [if_neg hold, erase_cons_head, erase_cons_head]
    have hne : (if x = old then new else x) ≠ e := by
      split
      · exact Ne.symm hnew
      · exact hx
    rw [erase_cons_tail (by simpa using hne), erase_cons_tail (by simpa using hx), ih, map_cons]

/-- Clearing the rest of the last page commutes with releasing another entry. -/
theorem release_truncateEntry (hlast : last.offset < pgroundup size) (hkey : entry.key ≠ last.key)
    (s : Machine Proc) :
    pageCacheRelease (truncateEntry size s last) entry = truncateEntry size (pageCacheRelease s entry) last := by
  have hold : entry ≠ last := fun h => hkey (congrArg CacheEntry.key h)
  have hnew : entry ≠ { last with dirty := false, writebackMapped := false, evicting := false } :=
    fun h => hkey (h ▸ rfl)
  unfold truncateEntry
  rw [if_neg (by omega), if_neg (by omega)]
  unfold pageCacheRelease setEntry setData pfree
  simp only [erase_replace hold hnew]
  split <;> rfl

theorem foldl_release_truncateEntry (hlast : last.offset < pgroundup size)
    (hl : ∀ entry ∈ l, entry.key ≠ last.key) (s : Machine Proc) :
    l.foldl pageCacheRelease (truncateEntry size s last) =
      truncateEntry size (l.foldl pageCacheRelease s) last := by
  induction l generalizing s with
  | nil => rw [foldl_nil, foldl_nil]
  | cons entry l ih =>
    rw [foldl_cons, foldl_cons, release_truncateEntry hlast (hl entry mem_cons_self)]
    exact ih (fun other ho => hl other (mem_cons_of_mem _ ho)) _

/-- **The loop of a shrinking `page_cache_truncate`**: whole pages are released, and the page the new end is in,
    if it is cached, may come last. -/
theorem foldl_truncateEntry (size : Nat) (hkeys : Keyed CacheEntry.key l)
    (hlast : ∀ e₁ ∈ l, ∀ e₂ ∈ l, e₁.offset < pgroundup size → e₂.offset < pgroundup size → e₁.key = e₂.key)
    (s : Machine Proc) :
    ((∀ e ∈ l, pgroundup size ≤ e.offset) ∧ l.foldl (truncateEntry size) s = l.foldl pageCacheRelease s) ∨
    ∃ last ∈ l, last.offset < pgroundup size ∧
      l.foldl (truncateEntry size) s = truncateEntry size ((l.erase last).foldl pageCacheRelease s) last := by
  have hbig : ∀ l' : List CacheEntry, (∀ e ∈ l', pgroundup size ≤ e.offset) → ∀ t : Machine Proc,
      l'.foldl (truncateEntry size) t = l'.foldl pageCacheRelease t := by
    intro l' hl' t
    refine foldl_ext _ _ _ fun t e he => ?_
    unfold truncateEntry
    rw [if_pos (hl' e he)]
  by_cases hall : ∀ e ∈ l, pgroundup size ≤ e.offset
  · exact .inl ⟨hall, hbig l hall s⟩
  simp only [not_forall, not_le] at hall
  obtain ⟨last, hl, hoff⟩ := hall
  refine .inr ⟨last, hl, hoff, ?_⟩
  obtain ⟨l₁, l₂, rfl⟩ := append_of_mem hl
  have hother : ∀ e ∈ l₁ ++ l₂, e.key ≠ last.key := by
    have hperm : (l₁ ++ last :: l₂).Perm (last :: (l₁ ++ l₂)) := perm_middle
    exact (keyed_cons.mp (hkeys.perm hperm.symm)).1
  have hsub : ∀ e ∈ l₁ ++ l₂, e ∈ l₁ ++ last :: l₂ := fun e he => by
    rcases mem_append.mp he with h | h
    · exact mem_append_left _ h
    · exact mem_append_right _ (mem_cons_of_mem _ h)
  have hge : ∀ e ∈ l₁ ++ l₂, pgroundup size ≤ e.offset := by
    intro e he
    by_contra hlt
    exact hother e he (hlast e (hsub e he) last hl (by omega) hoff)
  have hne : last ∉ l₁ := fun h => hother last (mem_append_left _ h) rfl
  rw [erase_append_right _ hne, erase_cons_head, foldl_append, foldl_cons,
    hbig l₁ (fun e he => hge e (mem_append_left _ he)),
    hbig l₂ (fun e he => hge e (mem_append_right _ he)),
    foldl_release_truncateEntry hoff (fun e he => hother e (mem_append_right _ he)), foldl_append]

section
variable (h : Inv g s hand)
include h

/-- **A file gets shorter** whose cached pages all begin below the new end and are in the file. -/
theorem Inv.cut (inode size : Nat) (hsize : size ≤ (s.files inode).size)
    (hbelow : ∀ entry ∈ s.cache, entry.inode = inode → entry.offset < size)
    (hsync : g.coherent → ∀ entry ∈ s.cache, entry.inode = inode → Synced s entry) :
    Inv g (s.withFiles (update s.files inode ((s.files inode).truncate size))) hand := by
  have hcut := h.rewrite inode ((s.files inode).truncate size) s.data (g.bytes inode) hbelow
    (fun _ _ _ => rfl) (fun hc entry he hin i hi hx => ?_) (fun hc entry he hin _ _ i hi hx => ?_)
    (fun hc x hx hnone => ?_) fun hc x hx => ?_
  · rwa [set_self] at hcut
  · have hx : entry.offset + i < size := hx
    rw [h.cached hc entry he i hi (by rw [hin]; omega), hin]
  · have hx : entry.offset + i < size := hx
    rw [hsync hc entry he hin i hi (by rw [hin]; omega), hin]
    exact (if_neg (by omega)).symm
  · have hx : x < size := hx
    rw [← h.uncached hc inode x (by omega) hnone]
    exact if_neg (by omega)
  · have hx : size ≤ x := hx
    by_cases hlt : size < (s.files inode).size
    · exact if_pos ⟨hlt, hx⟩
    · refine (if_neg fun hcut => hlt hcut.1).trans (h.zeros hc inode x (by omega))

/-- **The page the new end is in**: its rest is cleared and its marks go. -/
theorem Inv.truncateLast (he : entry ∈ s.cache) (hone : s.refs entry.page = 1)
    (hsync : g.coherent → Synced s entry) (hsize : (s.files entry.inode).size = size)
    (hoff : entry.offset = pgrounddown size) (hlt : entry.offset < pgroundup size) :
    Inv g (truncateEntry size s entry) hand := by
  unfold Mm.truncateEntry
  rw [if_neg (by omega)]
  have hrel : entry.offset + size % pgsize = size := by
    rw [hoff]
    exact Nat.sub_add_cancel (Nat.mod_le _ _)
  have hkeep : ∀ i, entry.offset + i < size →
      (if size % pgsize ≤ i then 0 else s.data entry.page i) = s.data entry.page i := fun i hx =>
    if_neg (by omega)
  have hok := h.entries entry he
  refine (h.setTail he _ fun i hi hx => hkeep i (hsize ▸ hx)).setEntry he rfl rfl
    ⟨hok.page, hok.below, hok.file, fun hm => ?_⟩ (.inr (.inl hone)) fun hc _ _ i hi hx => ?_
  · simp at hm
  · show update s.data entry.page _ entry.page i = _
    rw [update_self]
    rw [hkeep i (hsize ▸ hx)]
    exact hsync hc i hi hx

omit h in
/-- The new end of a file and the page of an entry that is not below it. -/
theorem truncate_offset {offset : Nat} (hp : pgsize ∣ offset) :
    (offset < pgrounddown size → offset < size) ∧
    (pgrounddown size ≤ offset → offset < pgroundup size → offset = pgrounddown size ∧ offset < size) := by
  obtain ⟨n, rfl⟩ := hp
  unfold pgroundup pgrounddown pgsize
  constructor <;> omega

/-- Entries that nobody has mapped go, and the file is cut where the other entries allow it. -/
theorem Inv.releaseCut [DecidableEq Proc] (hsize : size ≤ (s.files inode).size) (hnodup : l.Nodup)
    (hl : ∀ entry ∈ l, entry ∈ s.cache ∧ s.refs entry.page = 1) (hin : ∀ entry ∈ l, entry.inode = inode)
    (hrest : ∀ entry ∈ s.cache, entry.inode = inode → entry ∉ l → entry.offset < size)
    (hsync : g.coherent → ∀ entry ∈ s.cache, entry.inode = inode → Synced s entry) :
    Inv g ((l.foldl Mm.pageCacheRelease s).withFiles
      (update s.files inode ((s.files inode).truncate size))) hand := by
  have hrel := Inv.releaseAll l s h hnodup hl fun hc entry he => hsync hc entry (hl entry he).1 (hin entry he)
  obtain ⟨hcache, _, hfiles, hdata, _⟩ := foldl_pageCacheRelease s
  have hmem : ∀ entry ∈ (l.foldl Mm.pageCacheRelease s).cache, entry ∈ s.cache ∧ entry ∉ l := by
    intro entry he
    rw [hcache] at he
    exact h.cacheKeys.nodup.mem_sdiff_iff.mp he
  have hcut := hrel.cut inode size (by rwa [hfiles])
    (fun entry he hi => hrest entry (hmem entry he).1 hi (hmem entry he).2) fun hc entry he hi => ?_
  · rwa [hfiles] at hcut
  · have := hsync hc entry (hmem entry he).1 hi
    unfold Synced at this ⊢
    rwa [hfiles, hdata]

/-- **A shrinking `page_cache_truncate`.** -/
theorem Inv.pageCacheTruncate_shrink [DecidableEq Proc] (hsize : size < (s.files inode).size)
    (hsync : g.coherent → ∀ entry ∈ s.cache, entry.inode = inode → Synced s entry)
    (hrun : pageCacheTruncate (s.withFiles (update s.files inode ((s.files inode).truncate size))) inode
      (s.files inode).size size = some s') :
    Inv g s' hand ∧ s'.vmas = s.vmas ∧
    s'.files = update s.files inode ((s.files inode).truncate size) := by
  unfold Mm.pageCacheTruncate at hrun
  rw [if_neg (by omega)] at hrun
  simp only at hrun
  split at hrun
  · exact absurd hrun (by simp)
  rename_i hfree
  obtain rfl := some.inj hrun
  rw [foldl_truncateEntry_withFiles]
  generalize hcut : (s.withFiles (update s.files inode
    ((s.files inode).truncate size))).cache.filter _ = cut at hfree ⊢
  -- the entries from the page of the new end on: only the cache has them
  have hmem : ∀ entry, entry ∈ cut ↔ entry ∈ s.cache ∧ entry.inode = inode ∧ pgrounddown size ≤ entry.offset := by
    intro entry
    rw [← hcut]
    show entry ∈ s.cache.filter _ ↔ _
    rw [mem_filter, decide_eq_true_iff]
  have hkeys : Keyed CacheEntry.key cut := by
    rw [← hcut]
    exact h.cacheKeys.sublist filter_sublist
  have hone : ∀ entry ∈ cut, entry ∈ s.cache ∧ s.refs entry.page = 1 := by
    intro entry he
    refine ⟨((hmem entry).mp he).1, ?_⟩
    by_contra hne
    refine hfree (any_eq_true.mpr ⟨entry, he, ?_⟩)
    change (entry.evicting || decide (pallocRefcount s entry.page ≠ 1)) = true
    rw [h.pallocRefcount_eq]
    simp [hne]
  have hbelow : ∀ entry ∈ s.cache, entry.inode = inode → entry ∉ cut → entry.offset < size := by
    intro entry he hin hnot
    refine (truncate_offset (h.entries entry he).page).1 ?_
    by_contra hge
    exact hnot ((hmem entry).mpr ⟨he, hin, by omega⟩)
  have hlast : ∀ entry ∈ cut, entry.offset < pgroundup size →
      entry.offset = pgrounddown size ∧ entry.offset < size := fun entry he =>
    (truncate_offset (h.entries entry ((hmem entry).mp he).1).page).2 ((hmem entry).mp he).2.2
  obtain ⟨hall, heq⟩ | ⟨last, hl, hoff, heq⟩ := foldl_truncateEntry size hkeys
    (fun e₁ h₁ e₂ h₂ ho₁ ho₂ => Prod.ext
      (((hmem e₁).mp h₁).2.1.trans ((hmem e₂).mp h₂).2.1.symm)
      ((hlast e₁ h₁ ho₁).1.trans (hlast e₂ h₂ ho₂).1.symm)) s
  · rw [heq]
    exact ⟨h.releaseCut hsize.le hkeys.nodup hone (fun entry he => ((hmem entry).mp he).2.1) hbelow hsync,
      (foldl_pageCacheRelease s).2.1, rfl⟩
  obtain ⟨hcache, hvmas, hfiles, hdata, hrefs⟩ := foldl_pageCacheRelease s
  obtain ⟨hls, hlin, _⟩ := (hmem last).mp hl
  have hrel := h.releaseCut hsize.le (hkeys.nodup.erase last)
    (fun entry he => hone entry (mem_of_mem_erase he))
    (fun entry he => ((hmem entry).mp (mem_of_mem_erase he)).2.1)
    (fun entry he hin hnot => ?_) hsync
  · rw [heq, ← truncateEntry_withFiles]
    refine ⟨hrel.truncateLast ?_ ?_ (fun hc i hi hx => ?_) ?_ (hlast last hl hoff).1 hoff, ?_, ?_⟩
    · show last ∈ ((cut.erase last).foldl Mm.pageCacheRelease s).cache
      rw [hcache, h.cacheKeys.nodup.mem_sdiff_iff]
      exact ⟨hls, fun hm => (hkeys.mem_erase.mp hm).1 rfl⟩
    · show ((cut.erase last).foldl Mm.pageCacheRelease s).refs last.page = 1
      rw [hrefs _ fun entry he hp => ?_]
      · exact (hone last hl).2
      · obtain ⟨hne, hm⟩ := hkeys.mem_erase.mp he
        exact hne (h.cachePages.inj (hone entry hm).1 hls hp)
    · have hx : last.offset + i < (update s.files inode _ last.inode).size := hx
      show ((cut.erase last).foldl Mm.pageCacheRelease s).data last.page i =
        (update s.files inode _ last.inode).data (last.offset + i)
      rw [hlin, update_self] at hx ⊢
      have hx : last.offset + i < size := hx
      rw [hdata, hsync hc last hls hlin i hi (by rw [hlin]; omega), hlin]
      exact (if_neg (by omega)).symm
    · show (update s.files inode _ last.inode).size = size
      rw [hlin, update_self]
      rfl
    · rw [truncateEntry_vmas hoff]
      exact hvmas
    · rw [truncateEntry_files hoff]
      rfl
  · by_cases hel : entry = last
    · rw [hel]
      exact (hlast last hl hoff).2
    · exact hbelow entry he hin fun hm => hnot (hkeys.mem_erase.mpr ⟨hel, hm⟩)

omit h in
theorem foldl_unmapPte_withFiles [DecidableEq Proc] (files : Nat → File) (l : List (Pte Proc)) (s : Machine Proc) :
    l.foldl unmapPte (s.withFiles files) = (l.foldl unmapPte s).withFiles files := by
  induction l generalizing s with
  | nil => rfl
  | cons pte l ih => rw [foldl_cons, foldl_cons, unmapPte_withFiles, ih]

/-- **`mmap_file_truncate`**, after write-back and with the file truncated. -/
theorem Inv.mmapFileTruncate [DecidableEq Proc] (size : Nat)
    (hsync : g.coherent → ∀ entry ∈ s.cache, entry.inode = inode → Synced s entry)
    (hrun : mmapFileTruncate (s.withFiles (update s.files inode ((s.files inode).truncate size)))
      inode (s.files inode).size size = some s') :
    Inv (g.set inode (rewritten (g.bytes inode) (s.files inode).size size 0 [])) s' hand ∧
    s'.vmas = s.vmas ∧ s'.files = update s.files inode ((s.files inode).truncate size) := by
  unfold Mm.mmapFileTruncate at hrun
  split_ifs at hrun with hlt
  · rw [foldl_unmapPte_withFiles] at hrun
    change Mm.pageCacheTruncate (((s.ptes.filter (s.truncated inode size)).foldl Mm.unmapPte s).withFiles _) inode _
      size = some s' at hrun
    have hinv := (h.unmapWhere (s.truncated inode size)).1
    obtain ⟨_, hvmas, hcache, hfiles, hdata⟩ := foldl_unmapPte (s.ptes.filter (s.truncated inode size)) s
    generalize (s.ptes.filter (s.truncated inode size)).foldl Mm.unmapPte s = t at *
    rw [← hfiles] at hrun hlt
    obtain ⟨h1, h2, h3⟩ := hinv.pageCacheTruncate_shrink hlt (fun hc entry he hin => by
      have := hsync hc entry (hcache ▸ he) hin
      unfold Synced at this ⊢
      rwa [hfiles, hdata]) hrun
    rw [rewritten_nothing (by rw [← hfiles]; exact hlt.le), set_self]
    exact ⟨h1, h2.trans hvmas, hfiles ▸ h3⟩
  · exact h.pageCacheTruncate_grow (by omega) rfl (fun x => if_neg (by omega)) hrun

/-- **`vfs_truncate_inode`.** -/
theorem Inv.vfsTruncateInode [DecidableEq Proc] {r : Machine Proc × Int}
    (hrun : vfsTruncateInode s inode size = some r) :
    Inv (g.set inode (rewritten (g.bytes inode) (s.files inode).size (r.1.files inode).size 0 [])) r.1 hand ∧
    r.1.vmas = s.vmas := by
  unfold Mm.vfsTruncateInode at hrun
  split at hrun
  · obtain rfl := some.inj hrun
    rw [rewritten_nothing le_rfl, set_self]
    exact ⟨h, rfl⟩
  obtain ⟨hok, iB, fB, hsync⟩ := h.pageCacheWritebackInode inode
  generalize Mm.pageCacheWritebackInode s inode = B at *
  obtain ⟨sB, back⟩ := B
  simp only at hok iB fB hsync hrun
  have hsize := fB.size inode
  rw [hok] at hrun
  simp only [Bool.not_true, Bool.false_eq_true, if_false] at hrun
  have hpriv : ∃ rest, (if (s.files inode).size = size then (sB, true) else Mm.outcome sB).1 =
      { sB with outcomes := rest } := by
    split
    · exact ⟨sB.outcomes, rfl⟩
    · exact outcome_fst sB
  generalize (if (s.files inode).size = size then (sB, true) else Mm.outcome sB) = P at *
  obtain ⟨sP, priv⟩ := P
  obtain ⟨rest, rfl⟩ := hpriv
  have iP : Inv g { sB with outcomes := rest } hand := { iB with }
  dsimp only at hrun
  split at hrun
  · obtain rfl := some.inj hrun
    rw [rewritten_nothing (le_of_eq hsize), set_self]
    exact ⟨iP, fB.vmas⟩
  obtain ⟨t, ht, rfl⟩ := Option.map_eq_some_iff.mp hrun
  rw [← hsize] at ht ⊢
  obtain ⟨h1, h2, h3⟩ := iP.mmapFileTruncate size hsync ht
  simp only [h3, update_self]
  exact ⟨h1, h2.trans fB.vmas⟩

end

end Caffeinix.Mm
