import Caffeinix.Mm.Entries
import Mathlib.Data.List.TakeWhile

/-!
# `Mm.Lookup` — the invariant through `page_cache_get` and the marks

A page that `page_cache_get` hands out is in hand, and it is the page of the entry for its place in the file.
Readahead puts several pages into the cache; every path on which something is missing gives back what it took.
-/

namespace Caffeinix.Mm

open Nat Multiset List Vma

variable {Proc : Type} {g : Ghost Proc} {s s' : Machine Proc} {hand : Multiset Page}
  {page : Page} {entry : CacheEntry} {file : VfsFile} {offset bytes : Nat}

/-! ## Allocation with reclaim -/

/-- A page that an allocation may return, if it may reclaim: it is free, or only the cache has it. -/
def Spare (s : Machine Proc) (page : Page) : Prop := s.refs page = 0 ∨ ∃ entry ∈ s.cache, entry.page = page

theorem Reclaims.spare (h : Reclaims s s') (hs : Spare s' page) : Spare s page := by
  by_contra hn
  have hrefs : s.refs page ≠ 0 := fun hz => hn (.inl hz)
  have hcache : ∀ entry ∈ s.cache, entry.page ≠ page := fun entry he hp => hn (.inr ⟨entry, he, hp⟩)
  rcases hs with hz | ⟨entry, he, hp⟩
  · exact hrefs ((h.refs page hrefs hcache) ▸ hz)
  · exact hcache entry (h.cache entry he) hp

/-- A page put that was taken since. -/
theorem Reclaims.pfree (h : Reclaims s s') (hs : Spare s page) : Reclaims s (pfree s' page) where
  ptes := pfree_ptes.trans h.ptes
  cache := fun other ho => h.cache other (by rwa [pfree_cache] at ho)
  anon := pfree_anon.trans h.anon
  vmas := pfree_vmas.trans h.vmas
  files := pfree_files.trans h.files
  pins := pfree_pins.trans h.pins
  canRead := pfree_canRead.trans h.canRead
  refs := fun other ho hc => by
    have hne : other ≠ page := by
      rintro rfl
      rcases hs with hz | ⟨entry, he, hp⟩
      · exact ho hz
      · exact hc entry he hp
    rw [pfree_refs_of_ne hne]
    exact h.refs other ho hc

/-- What a call that may take a page leaves: nothing in hand, or a page that nobody else has. -/
def Took (g : Ghost Proc) (s : Machine Proc) (hand : Multiset Page) (r : Machine Proc × Option Page) : Prop :=
  Reclaims s r.1 ∧ ((r.2 = none ∧ Inv g r.1 hand) ∨
    ∃ page, r.2 = some page ∧ Spare s page ∧ Inv g r.1 (page ::ₘ hand) ∧ r.1.refs page = 1)

/-- Other allocations and some reclaim before. -/
theorem Took.after {r : Machine Proc × Option Page} (h : Took g s' hand r) (hframe : Reclaims s s') :
    Took g s hand r := by
  obtain ⟨h1, h2⟩ := h
  refine ⟨hframe.trans h1, ?_⟩
  rcases h2 with hn | ⟨page, hp, hs, hinv, hone⟩
  · exact .inl hn
  · exact .inr ⟨page, hp, hframe.spare hs, hinv, hone⟩

theorem Inv.pallocZero (h : Inv g s hand) : Took g s hand (pallocZero s) := by
  refine ⟨(allocPages_allocs s true).reclaims, ?_⟩
  rcases h.allocPages true with hn | ⟨page, hp, hzero, hone, hinv⟩
  · exact .inl hn
  · exact .inr ⟨page, hp, .inl hzero, hinv, hone⟩

/-- **`palloc_zero`, once more if something could be reclaimed.** -/
theorem Inv.pallocReclaim [DecidableEq Proc] (h : Inv g s hand) : Took g s hand (pallocReclaim s) := by
  unfold Mm.pallocReclaim
  have htook := h.pallocZero
  simp only
  split
  · exact htook
  rename_i hnone
  obtain ⟨hframe, ⟨_, hinv⟩ | ⟨page, hp, _⟩⟩ := htook
  · obtain ⟨h1, h2⟩ := hinv.pageCacheReclaim 1
    split
    · exact ⟨hframe.trans h2, .inl ⟨rfl, h1⟩⟩
    · exact h1.pallocZero.after (hframe.trans h2)
  · exact absurd (by rw [hp]; rfl) hnone

/-- **A page with an entry for it.** -/
theorem Inv.allocEntryPage [DecidableEq Proc] (h : Inv g s hand) : Took g s hand (allocEntryPage s) := by
  unfold Mm.allocEntryPage Mm.pallocZero
  have fA := outcome_allocs s
  have iA := h.outcome
  generalize Mm.outcome s = A at *
  obtain ⟨sA, entry⟩ := A
  refine .after ?_ fA.reclaims
  have fP := allocPages_allocs sA true
  have iP := iA.allocPages true
  simp only at iA fP iP ⊢
  generalize Mm.allocPages sA true = P at *
  obtain ⟨sP, page⟩ := P
  rcases iP with ⟨rfl, iP⟩ | ⟨p, rfl, hzero, hone, iP⟩
  · -- no page: after some reclaim, both are tried again
    obtain ⟨iR, fR⟩ := iP.pageCacheReclaim 1
    generalize Mm.pageCacheReclaim sP 1 = R at *
    obtain ⟨sR, n⟩ := R
    simp only [Option.isSome_none, Bool.and_false, Bool.false_eq_true, if_false] at iR fR ⊢
    by_cases hn : n = 0
    · simp only [hn, if_true]
      exact ⟨fP.reclaims.trans fR, .inl ⟨rfl, iR⟩⟩
    simp only [hn, if_false]
    generalize hE : (if entry = true then (sR, true) else Mm.outcome sR) = E
    obtain ⟨fE, iE⟩ : Allocs sR E.1 ∧ Inv g E.1 hand := by
      rw [← hE]
      split
      · exact ⟨.refl sR, iR⟩
      · exact ⟨outcome_allocs sR, iR.outcome⟩
    obtain ⟨sE, entry'⟩ := E
    refine .after ?_ (fP.reclaims.trans (fR.trans fE.reclaims))
    have fQ := allocPages_allocs sE true
    have iQ := iE.allocPages true
    generalize Mm.allocPages sE true = Q at *
    obtain ⟨sQ, page'⟩ := Q
    rcases iQ with ⟨rfl, iQ⟩ | ⟨q, rfl, hzero, hone, iQ⟩
    · exact ⟨fQ.reclaims, .inl ⟨rfl, iQ⟩⟩
    · cases entry' with
      | true => exact ⟨fQ.reclaims, .inr ⟨q, rfl, .inl hzero, iQ, hone⟩⟩
      | false => exact ⟨(fQ.pfree hzero).reclaims, .inl ⟨rfl, iQ.pfree⟩⟩
  · cases entry with
    | true => exact ⟨fP.reclaims, .inr ⟨p, rfl, .inl hzero, iP, hone⟩⟩
    | false =>
      -- no entry: the page is in hand while something is reclaimed
      obtain ⟨iR, fR⟩ := iP.pageCacheReclaim 1
      have hone' := (fR.refs p (by rw [hone]; decide) (iP.fresh hone).2.1).trans hone
      generalize Mm.pageCacheReclaim sP 1 = R at *
      obtain ⟨sR, n⟩ := R
      have fPR := fP.reclaims.trans fR
      by_cases hn : n = 0
      · simp only [hn, if_true, Bool.false_eq_true, if_false]
        exact ⟨fPR.pfree (.inl hzero), .inl ⟨rfl, iR.pfree⟩⟩
      simp only [hn, if_false]
      have fE := outcome_allocs sR
      have iE := iR.outcome
      generalize Mm.outcome sR = E at *
      obtain ⟨sE, entry'⟩ := E
      have fPE := fPR.trans fE.reclaims
      cases entry' with
      | true =>
        refine ⟨fPE, .inr ⟨p, rfl, .inl hzero, iE, ?_⟩⟩
        exact (fE.refs p (by rw [hone']; decide)).trans hone'
      | false => exact ⟨fPE.pfree (.inl hzero), .inl ⟨rfl, iE.pfree⟩⟩

/-! ## Readahead -/

/-- The leaves, the VMA sets and the sizes of files are as they were. -/
structure Keeps (s s' : Machine Proc) : Prop where
  ptes : s'.ptes = s.ptes
  vmas : s'.vmas = s.vmas
  size : ∀ inode, (s'.files inode).size = (s.files inode).size

variable {s'' : Machine Proc}

theorem Keeps.trans (h : Keeps s s') (h' : Keeps s' s'') : Keeps s s'' :=
  ⟨h'.ptes.trans h.ptes, h'.vmas.trans h.vmas, fun inode => (h'.size inode).trans (h.size inode)⟩

/-- The files have not changed at all. -/
theorem Keeps.of_files (hp : s'.ptes = s.ptes) (hv : s'.vmas = s.vmas) (hf : s'.files = s.files) : Keeps s s' :=
  ⟨hp, hv, fun _ => by rw [hf]⟩

theorem Reclaims.keeps (h : Reclaims s s') : Keeps s s' := .of_files h.ptes h.vmas h.files

theorem Allocs.keeps (h : Allocs s s') : Keeps s s' := .of_files h.ptes h.vmas h.files

theorem Keeps.pfree (h : Keeps s s') : Keeps s (pfree s' page) :=
  ⟨pfree_ptes.trans h.ptes, pfree_vmas.trans h.vmas, fun inode => by rw [pfree_files]; exact h.size inode⟩

theorem Keeps.pfreeAll (pages : List Page) : ∀ s' : Machine Proc, Keeps s s' →
    Keeps s (pages.foldl Mm.pfree s') := by
  induction pages with
  | nil => intro s' h; exact h
  | cons page pages ih => intro s' h; exact ih _ h.pfree

/-- The pages that readahead takes are nobody else's. -/
theorem Inv.readaheadAlloc [DecidableEq Proc] (count : Nat) :
    ∀ (s : Machine Proc) (hand : Multiset Page), Inv g s hand →
    let r := readaheadAlloc s count
    Inv g r.1 (↑r.2 + hand) ∧ Allocs s r.1 ∧ (∀ page ∈ r.2, r.1.refs page = 1) ∧ r.2.length ≤ count := by
  induction count with
  | zero =>
    intro s hand h
    refine ⟨?_, .refl s, fun page hp => absurd hp not_mem_nil, le_refl _⟩
    simpa [Mm.readaheadAlloc] using h
  | succ count ih =>
    intro s hand h
    unfold Mm.readaheadAlloc Mm.pallocZero
    have fA := outcome_allocs s
    have iA := h.outcome
    generalize Mm.outcome s = A at *
    obtain ⟨sA, entry⟩ := A
    have fP := allocPages_allocs sA true
    have iP := iA.allocPages true
    simp only at fA iA fP iP ⊢
    generalize Mm.allocPages sA true = P at *
    obtain ⟨sP, page⟩ := P
    rcases iP with ⟨rfl, iP⟩ | ⟨p, rfl, hzero, hone, iP⟩
    · refine ⟨?_, fA.trans fP, fun page hp => absurd hp not_mem_nil, zero_le _⟩
      simpa using iP
    cases entry with
    | true =>
      obtain ⟨h1, h2, h3, h4⟩ := ih sP (p ::ₘ hand) iP
      simp only [if_true]
      refine ⟨?_, (fA.trans fP).trans h2, fun page hp => ?_, succ_le_succ h4⟩
      · rw [← cons_coe, cons_add, ← add_cons]
        exact h1
      · rcases mem_cons.mp hp with rfl | hp
        · exact (h2.refs page (by rw [hone]; decide)).trans hone
        · exact h3 page hp
    | false =>
      refine ⟨?_, fA.trans (fP.pfree hzero), fun page hp => absurd hp not_mem_nil, zero_le _⟩
      simpa using iP.pfree

/-- Inserting pages touches only the cache and the contents of the pages. -/
theorem readaheadInsert_frame {finish : Nat} {pages : List Page} :
    ∀ (s : Machine Proc) (offset : Nat),
    let r := readaheadInsert s file finish offset pages
    Keeps s r ∧ r.refs = s.refs ∧ (∀ entry ∈ s.cache, entry ∈ r.cache) := by
  induction pages with
  | nil => intro s offset; exact ⟨⟨rfl, rfl, fun _ => rfl⟩, rfl, fun _ he => he⟩
  | cons page pages ih =>
    intro s offset
    obtain ⟨h1, h2, h3⟩ := ih (insertEntry s file offset (min pgsize (finish - offset)) page)
      (offset + pgsize)
    exact ⟨⟨h1.ptes, h1.vmas, h1.size⟩, h2, fun entry he => h3 entry (mem_cons_of_mem _ he)⟩

/-- **The pages of readahead go into the cache**, one behind the other in the file. -/
theorem Inv.readaheadInsert (finish : Nat) (pages : List Page) : ∀ (s : Machine Proc) (offset : Nat),
    Inv g s (↑pages + hand) → (∀ page ∈ pages, s.refs page = 1) → pgsize ∣ offset →
    finish = min (offset + pages.length * pgsize) (s.files file.inode).size →
    (∀ k < pages.length, offset + k * pgsize < (s.files file.inode).size ∧
      ∀ entry ∈ s.cache, entry.key ≠ (file.inode, offset + k * pgsize)) →
    Inv g (readaheadInsert s file finish offset pages) hand := by
  induction pages with
  | nil => intro s offset h _ _ _ _; simpa [Mm.readaheadInsert] using h
  | cons page pages ih =>
    intro s offset h hone hpage hfin hfree
    rw [length_cons, succ_mul] at hfin
    obtain ⟨hbelow, hkey⟩ := hfree 0 (succ_pos _)
    rw [zero_mul, add_zero] at hbelow hkey
    have hhere : Inv g s (page ::ₘ (↑pages + hand)) := by
      rw [← cons_add]
      exact h
    have hins : Inv g (Mm.insertEntry s file offset (min pgsize (finish - offset)) page) (↑pages + hand) :=
      hhere.insertEntry (hone page mem_cons_self) hkey hpage hbelow fun i hi hx => by omega
    refine ih _ (offset + pgsize) hins (fun other ho => hone other (mem_cons_of_mem _ ho))
      (Nat.dvd_add hpage (Nat.dvd_refl _)) ?_ fun k hk => ?_
    · show finish = min (offset + pgsize + pages.length * pgsize) (s.files file.inode).size
      rw [hfin]
      omega
    · obtain ⟨h1, h2⟩ := hfree (k + 1) (succ_lt_succ hk)
      rw [succ_mul] at h1 h2
      have hnext : offset + pgsize + k * pgsize = offset + (k * pgsize + pgsize) := by omega
      rw [hnext]
      refine ⟨h1, fun entry he => ?_⟩
      rcases mem_cons.mp he with rfl | he
      · intro hk'
        have hoff : offset = offset + (k * pgsize + pgsize) := (Prod.mk_inj.mp hk').2
        have := pgsize_pos
        omega
      · exact h2 entry he

/-- How far readahead goes: no page on the way is cached, and all begin below the end of the file. -/
theorem readaheadCount_spec {inode : Nat} (hcount : 2 ≤ readaheadCount s inode offset bytes) :
    ∀ k, 1 ≤ k → k < readaheadCount s inode offset bytes →
      offset + k * pgsize < (s.files inode).size ∧
      ∀ entry ∈ s.cache, entry.key ≠ (inode, offset + k * pgsize) := by
  unfold readaheadCount at hcount ⊢
  simp only at hcount ⊢
  split at hcount
  · omega
  rename_i hmore
  rw [if_neg hmore]
  intro k h1 h2
  generalize hcount0 : (if (s.files inode).size - offset > pageCacheReadaheadPages * pgsize then
    pageCacheReadaheadPages else ((s.files inode).size - offset + pgsize - 1) / pgsize) = count at *
  generalize hp : (fun index => (s.pageCacheFind inode (offset + index * pgsize)).isNone) = p at *
  -- the loop stops at the first page that is cached, so it passes the `k`-th
  have htake := prefix_iff_eq_take.mp ( takeWhile_prefix p (l := range' 1 (count - 1)))
  have hle : (takeWhile p (range' 1 (count - 1))).length ≤ count - 1 := by
    have := ( takeWhile_prefix p (l := range' 1 (count - 1))).length_le
    rwa [length_range'] at this
  have hk : k ∈ takeWhile p (range' 1 (count - 1)) := by
    rw [htake, mem_take_iff_getElem]
    refine ⟨k - 1, by rw [length_range']; omega, ?_⟩
    rw [getElem_range']
    omega
  have hnone := mem_takeWhile_imp hk
  rw [← hp] at hnone
  refine ⟨?_, pageCacheFind_eq_none.mp (Option.isNone_iff_eq_none.mp hnone)⟩
  unfold pgsize pageCacheReadaheadPages at *
  split at hcount0 <;> omega

/-! ## `page_cache_get` -/

/-- What a lookup leaves: on success the page is in hand, and it is the one of the entry for its place. -/
def Got (g : Ghost Proc) (hand : Multiset Page) (inode offset : Nat) (r : Machine Proc × CacheGet) : Prop :=
  match r.2 with
  | .ok page => Inv g r.1 (page ::ₘ hand) ∧
      ∃ entry ∈ r.1.cache, entry.key = (inode, offset) ∧ entry.page = page
  | _ => Inv g r.1 hand

section
variable (h : Inv g s hand)
include h

/-- A reference to the page of an entry. -/
theorem Inv.getEntry [DecidableEq Proc] (he : entry ∈ s.cache) :
    Mm.pallocGet s entry.page = (s, false) ∨
    ∃ s', Mm.pallocGet s entry.page = (s', true) ∧ Inv g s' (entry.page ::ₘ hand) ∧ s'.cache = s.cache ∧
      Keeps s s' := by
  have hshare : ∀ pte ∈ s.ptes, pte.perm.w = true → g.kind pte.proc pte.va = some .priv →
      pte.page ≠ entry.page := fun pte hp hw hk => Ne.symm ((h.exclusive_only hp hw hk).2.2.1 entry he)
  rcases h.pallocGet hshare with hf | ⟨s', hok, _, hs', hinv⟩
  · exact .inl hf
  · exact .inr ⟨s', hok, hinv, by rw [hs'], by rw [hs']; exact ⟨rfl, rfl, fun _ => rfl⟩⟩

/-- The page that just went into the cache is handed out. -/
theorem Inv.cacheGetNew [DecidableEq Proc] (he : newEntry file offset page ∈ s.cache) (hone : s.refs page = 1)
    (undo : Machine Proc → Machine Proc) :
    Got g hand file.inode offset (cacheGetNew s file offset page undo) ∧
    Keeps s (cacheGetNew s file offset page undo).1 := by
  have hget := h.pallocGet_of_one hone
  unfold Mm.cacheGetNew
  rcases h.getEntry he with hf | ⟨s', hok, hinv, hcache, hkeep⟩
  · have hf : Mm.pallocGet s page = (s, false) := hf
    rw [hf] at hget
    exact absurd hget (by simp)
  have hok : Mm.pallocGet s page = (s', true) := hok
  simp only [hok, if_true]
  have hmem : newEntry file offset page ∈ s'.cache := hcache ▸ he
  exact ⟨⟨hinv.toFront hmem, newEntry file offset page, mem_cons_self, rfl, rfl⟩,
    ⟨hkeep.ptes, hkeep.vmas, hkeep.size⟩⟩

/-- **`page_cache_readahead_locked`.** -/
theorem Inv.pageCacheReadaheadLocked [DecidableEq Proc] (bytes : Nat) (hpage : pgsize ∣ offset)
    (hkey : ∀ entry ∈ s.cache, entry.key ≠ (file.inode, offset)) :
    let after := pageCacheReadaheadLocked s file offset bytes
    (after.2 = none ∧ Inv g after.1 hand ∧ Reclaims s after.1) ∨
    ∃ r, after.2 = some r ∧ Got g hand file.inode offset (after.1, r) ∧ Keeps s after.1 := by
  unfold Mm.pageCacheReadaheadLocked
  simp only
  split
  · exact .inl ⟨rfl, h, .refl s⟩
  rename_i hcount
  have hrun := readaheadCount_spec (not_lt.mp hcount)
  generalize readaheadCount s file.inode offset bytes = count at *
  have fB := outcome_allocs s
  have iB := h.outcome
  generalize Mm.outcome s = B at *
  obtain ⟨sB, buffer⟩ := B
  cases buffer with
  | false => exact .inl ⟨rfl, iB, fB.reclaims⟩
  | true =>
    simp only [Bool.not_true, Bool.false_eq_true, if_false]
    obtain ⟨fF, tF⟩ := iB.allocEntryPage
    generalize Mm.allocEntryPage sB = F at *
    obtain ⟨sF, first⟩ := F
    have fBF := fB.reclaims.trans fF
    rcases tF with ⟨rfl, iF⟩ | ⟨page, rfl, hspare, iF, hone⟩
    · exact .inl ⟨rfl, iF, fBF⟩
    obtain ⟨iM, fM, oneM, lenM⟩ := Inv.readaheadAlloc (count - 1) sF _ iF
    generalize Mm.readaheadAlloc sF (count - 1) = M at *
    obtain ⟨sM, more⟩ := M
    simp only at iM fM oneM lenM ⊢
    have honeM : sM.refs page = 1 := (fM.refs page (by rw [hone]; decide)).trans hone
    have fAll := fBF.trans fM.reclaims
    split
    · -- no second page: the first goes back
      rename_i hnil
      subst hnil
      have iM : Inv g sM (page ::ₘ hand) := by simpa using iM
      exact .inl ⟨rfl, iM.pfree, fAll.pfree (fB.reclaims.spare hspare)⟩
    have fR := outcome_allocs sM
    have iR : Inv g (Mm.outcome sM).1 (↑(page :: more) + hand) := by
      rw [← cons_coe, cons_add, ← add_cons]
      exact iM.outcome
    generalize Mm.outcome sM = R at *
    obtain ⟨sR, read⟩ := R
    have fAllR := fAll.trans fR.reclaims
    split
    · exact .inr ⟨_, rfl, .pfreeAll _ _ iR, .pfreeAll _ _ fAllR.keeps⟩
    have honeR : ∀ p ∈ page :: more, sR.refs p = 1 := by
      intro p hp
      have honeM : sM.refs p = 1 := by
        rcases mem_cons.mp hp with rfl | hp
        · exact honeM
        · exact oneM p hp
      exact (fR.refs p (by rw [honeM]; decide)).trans honeM
    generalize hfin : min (offset + (more.length + 1) * pgsize) (s.files file.inode).size = finish
    have iI := Inv.readaheadInsert finish (page :: more) sR offset iR honeR hpage
      (by rw [fAllR.files, length_cons, hfin]) fun k hk => by
        rw [length_cons] at hk
        rw [fAllR.files]
        rcases Nat.eq_zero_or_pos k with rfl | hpos
        · refine ⟨?_, fun entry he => ?_⟩
          · have := (hrun 1 (le_refl _) (by omega)).1
            omega
          · rw [zero_mul, add_zero]
            exact hkey entry (fAllR.cache entry he)
        · obtain ⟨h1, h2⟩ := hrun k hpos (by omega)
          exact ⟨h1, fun entry he => h2 entry (fAllR.cache entry he)⟩
    obtain ⟨fI, rI, _⟩ := readaheadInsert_frame sR offset
    have hmem : newEntry file offset page ∈
        (Mm.readaheadInsert sR file finish offset (page :: more)).cache :=
      (readaheadInsert_frame _ (offset + pgsize)).2.2 _ mem_cons_self
    obtain ⟨h1, h2⟩ := iI.cacheGetNew hmem (by rw [rI]; exact honeR page mem_cons_self)
      fun s => (s.cache.take (more.length + 1)).foldl Mm.pageCacheRelease s
    exact .inr ⟨_, rfl, h1, fAllR.keeps.trans (fI.trans h2)⟩

/-- One page is read. -/
theorem Inv.pageCacheGetOne [DecidableEq Proc] (hpage : pgsize ∣ offset) (hpos : 0 < bytes)
    (hkey : ∀ entry ∈ s.cache, entry.key ≠ (file.inode, offset))
    (hbytes : ∀ i < pgsize, offset + i < (s.files file.inode).size → i < bytes) :
    Got g hand file.inode offset (pageCacheGetOne s file offset bytes) ∧
    Keeps s (pageCacheGetOne s file offset bytes).1 := by
  unfold Mm.pageCacheGetOne
  obtain ⟨fF, tF⟩ := h.allocEntryPage
  generalize Mm.allocEntryPage s = F at *
  obtain ⟨sF, first⟩ := F
  rcases tF with ⟨rfl, iF⟩ | ⟨page, rfl, hspare, iF, hone⟩
  · exact ⟨iF, fF.keeps⟩
  simp only
  have fR := outcome_allocs sF
  have iR := iF.outcome
  generalize Mm.outcome sF = R at *
  obtain ⟨sR, read⟩ := R
  have fAll := fF.trans fR.reclaims
  split
  · exact ⟨iR.pfree, fAll.keeps.pfree⟩
  rename_i hlen
  split
  · refine ⟨?_, (fAll.keeps.trans (outcome_allocs sR).keeps).pfree⟩
    unfold Got
    split
    · rename_i hres
      split at hres <;> exact absurd hres (by simp)
    · exact iR.outcome.pfree
  simp only [Bool.or_eq_true, Bool.not_eq_true', decide_eq_true_eq, not_or, not_lt] at hlen
  have honeR : sR.refs page = 1 := (fR.refs page (by rw [hone]; decide)).trans hone
  have iI : Inv g (Mm.insertEntry sR file offset bytes page) hand :=
    iR.insertEntry honeR (fun entry he => hkey entry (fAll.cache entry he)) hpage
      (by rw [fAll.files]; omega) (by rw [fAll.files]; exact hbytes)
  obtain ⟨h1, h2⟩ := iI.cacheGetNew mem_cons_self honeR fun s =>
    Mm.pageCacheRelease s (newEntry file offset page)
  exact ⟨h1, fAll.keeps.trans ⟨h2.ptes, h2.vmas, h2.size⟩⟩

/-- **`page_cache_get`**, for as many bytes of the page as the file has. -/
theorem Inv.pageCacheGet [DecidableEq Proc]
    (hbytes : ∀ i < pgsize, offset + i < (s.files file.inode).size → i < bytes) :
    Got g hand file.inode offset (pageCacheGet s file offset bytes) ∧
    Keeps s (pageCacheGet s file offset bytes).1 := by
  unfold Mm.pageCacheGet
  split
  · exact ⟨h, ⟨rfl, rfl, fun _ => rfl⟩⟩
  rename_i hargs
  simp only [Bool.or_eq_true, decide_eq_true_eq, not_or, not_lt, not_not] at hargs
  obtain ⟨⟨hpos, _⟩, hmod⟩ := hargs
  have hpage : pgsize ∣ offset := dvd_of_mod_eq_zero hmod
  split
  · rename_i entry hfind
    obtain ⟨he, hk⟩ := h.pageCacheFind_eq_some.mp hfind
    split
    · exact ⟨h, ⟨rfl, rfl, fun _ => rfl⟩⟩
    rcases h.getEntry he with hf | ⟨s', hok, hinv, hcache, hkeep⟩
    · simp only [hf]
      exact ⟨h, ⟨rfl, rfl, fun _ => rfl⟩⟩
    · simp only [hok, if_true]
      exact ⟨⟨hinv.toFront (hcache ▸ he), entry, mem_cons_self, hk, rfl⟩,
        ⟨hkeep.ptes, hkeep.vmas, hkeep.size⟩⟩
  · rename_i hfind
    have hkey := pageCacheFind_eq_none.mp hfind
    rcases h.pageCacheReadaheadLocked bytes hpage hkey with
      ⟨hn, hinv, hframe⟩ | ⟨r, hr, hgot, hkeep⟩
    · simp only [hn]
      obtain ⟨h1, h2⟩ := hinv.pageCacheGetOne hpage (Nat.pos_of_ne_zero hpos)
        (fun entry he => hkey entry (hframe.cache entry he)) (by rw [hframe.files]; exact hbytes)
      exact ⟨h1, hframe.keeps.trans h2⟩
    · simp only [hr]
      exact ⟨hgot, hkeep⟩

/-! ## Marks -/

/-- Marks leave the places of the entries alone. -/
structure Marks (s s' : Machine Proc) : Prop extends Keeps s s' where
  slots : s'.cache.map CacheEntry.slot = s.cache.map CacheEntry.slot
  refs : s'.refs = s.refs
  pins : s'.pins = s.pins
  anon : s'.anon = s.anon

omit h in
theorem Marks.refl (s : Machine Proc) : Marks s s := ⟨⟨rfl, rfl, fun _ => rfl⟩, rfl, rfl, rfl, rfl⟩

omit h in
theorem Marks.trans (h : Marks s s') (h' : Marks s' s'') : Marks s s'' :=
  ⟨h.toKeeps.trans h'.toKeeps, h'.slots.trans h.slots, h'.refs.trans h.refs, h'.pins.trans h.pins,
    h'.anon.trans h.anon⟩

variable (file : VfsFile) (offset : Nat)

/-- **`page_cache_mark_dirty`** marks the entry, which is then tracked for write-back. -/
theorem Inv.pageCacheMarkDirty : let r := pageCacheMarkDirty s file offset
    Inv g r.1 hand ∧ Marks s r.1 ∧ (r.2 = true → ∀ entry ∈ r.1.cache, entry.key = (file.inode, offset) →
        entry.writebackMapped = true) := by
  unfold Mm.pageCacheMarkDirty
  split
  · exact ⟨h, .refl s, fun hr => absurd hr (by simp)⟩
  rename_i hargs
  simp only [Bool.or_eq_true, Bool.not_eq_true', decide_eq_true_eq, not_or, Bool.not_eq_false] at hargs
  split
  · exact ⟨h, .refl s, fun hr => absurd hr (by simp)⟩
  rename_i entry hfind
  obtain ⟨he, hk⟩ := h.pageCacheFind_eq_some.mp hfind
  have hok := h.entries entry he
  refine ⟨h.setEntry he rfl rfl ⟨hok.page, hok.below, ?_, fun _ => ?_⟩ (.inl rfl)
    fun _ hd _ => absurd hd (by simp), ⟨⟨rfl, rfl, fun _ => rfl⟩, map_setEntry rfl, rfl, rfl, rfl⟩,
    fun _ other ho hko => ?_⟩
  · split
    · exact hok.file
    · exact (Prod.mk_inj.mp hk).1.symm
  · split
    · rename_i hw
      exact hw
    · exact hargs.1
  · rcases (setEntry_mem he).mp ho with rfl | ⟨hne, ho⟩
    · rfl
    · exact absurd (h.cacheKeys.inj ho he (hko.trans hk.symm)) hne

/-- **`vfs_file_mark_shared_dirty`.** -/
theorem Inv.vfsFileMarkSharedDirty : let r := vfsFileMarkSharedDirty s file offset
    Inv g r.1 hand ∧ Marks s r.1 ∧ (r.2 = true → ∀ entry ∈ r.1.cache, entry.key = (file.inode, offset) →
        entry.writebackMapped = true) := by
  unfold Mm.vfsFileMarkSharedDirty
  have hmarks : Marks s (Mm.outcome s).1 := by
    unfold Mm.outcome
    split
    · exact .refl s
    · exact ⟨⟨rfl, rfl, fun _ => rfl⟩, rfl, rfl, rfl, rfl⟩
  simp only
  split
  · obtain ⟨h1, h2, h3⟩ := h.outcome.pageCacheMarkDirty file offset
    exact ⟨h1, hmarks.trans h2, h3⟩
  · rename_i hr
    exact ⟨h.outcome, hmarks, fun hr' => absurd hr' hr⟩

/-- **`page_cache_mark_executable`.** -/
theorem Inv.pageCacheMarkExecutable : Inv g (pageCacheMarkExecutable s file offset).1 hand ∧
    Marks s (pageCacheMarkExecutable s file offset).1 := by
  unfold Mm.pageCacheMarkExecutable
  split
  · exact ⟨h, .refl s⟩
  split
  · exact ⟨h, .refl s⟩
  rename_i entry hfind
  obtain ⟨he, _⟩ := h.pageCacheFind_eq_some.mp hfind
  have hok := h.entries entry he
  split
  · exact ⟨h, .refl s⟩
  · exact ⟨h.setEntry he rfl rfl ⟨hok.page, hok.below, hok.file, hok.writable⟩ (.inr (.inr rfl))
      fun hc hd hw => h.clean hc entry he hd hw, ⟨⟨rfl, rfl, fun _ => rfl⟩, map_setEntry rfl, rfl, rfl, rfl⟩⟩

end

end Caffeinix.Mm
