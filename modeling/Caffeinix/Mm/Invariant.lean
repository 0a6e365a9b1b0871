import Caffeinix.Lib.Counted
import Caffeinix.Lib.Keyed
import Caffeinix.Mm.Step

/-!
# `Mm.Invariant` — what holds between any two statements of the memory code

`Inv g s hand` is the one invariant of the memory system. It is stated for a machine *and* for the references
the running code has in hand (`hand`), so that it holds inside the functions too: taking a page, mapping it
and putting it move references between the hand and their holders.

The ghost `g` says what kind of page each address of each process is, what bytes each file ought to have, and
whether those bytes are claimed at all. Nothing in the invariant but `g.kind` depends on the VMA sets.
-/

namespace Caffeinix.Mm

open Multiset Vma Machine

variable {Proc : Type}

/-- What is mapped at an address, as far as sharing goes. -/
inductive PageKind
  /-- a page of a `MAP_PRIVATE` area -/
  | priv
  /-- this page of this file, shared -/
  | sharedFile (inode offset : Nat)
  /-- a shared page that is not a file's -/
  | sharedAnon
deriving DecidableEq

/-- What the invariant is relative to. -/
structure Ghost (Proc : Type) where
  kind : Proc → Nat → Option PageKind
  bytes : Nat → Nat → UInt8
  /-- whether `bytes` is claimed -/
  coherent : Prop

def Pte.key (pte : Pte Proc) : Proc × Nat := (pte.proc, pte.va)

def CacheEntry.key (entry : CacheEntry) : Nat × Nat := (entry.inode, entry.offset)

/-- The references of all holders. -/
def Machine.held (s : Machine Proc) : Multiset Page :=
  refsOf Pte.page s.ptes + refsOf CacheEntry.page s.cache + refsOf AnonPage.page s.anon +
    refsOf Table.page s.tables + (s.pins : Multiset Page) + (s.kernel : Multiset Page)

/-- An entry of the page cache with consistent fields. -/
structure EntryOk (files : Nat → File) (canWrite : VfsFile → Bool) (entry : CacheEntry) : Prop where
  page : pgsize ∣ entry.offset
  below : entry.offset < (files entry.inode).size
  file : entry.file.inode = entry.inode
  writable : entry.dirty = true ∨ entry.writebackMapped = true → canWrite entry.file = true

/-- The page of the entry has the bytes of the file, as far as the file goes. -/
def Synced (s : Machine Proc) (entry : CacheEntry) : Prop :=
  ∀ i < pgsize, entry.offset + i < (s.files entry.inode).size →
    s.data entry.page i = (s.files entry.inode).data (entry.offset + i)

/-- What a page must be for a leaf with these permissions to map it at an address. -/
structure Mappable (g : Ghost Proc) (refs : Page → Nat) (pins : List Page) (cache : List CacheEntry)
    (pte : Pte Proc) : Prop where
  aligned : pgsize ∣ pte.va
  covered : g.kind pte.proc pte.va ≠ none
  /-- write permission on a private page means that nobody else has it, apart from pins -/
  exclusive : pte.perm.w = true → g.kind pte.proc pte.va = some .priv →
    refs pte.page = 1 + pins.count pte.page
  sharedFile : ∀ inode offset, g.kind pte.proc pte.va = some (.sharedFile inode offset) →
    ∃ entry ∈ cache, entry.key = (inode, offset) ∧ entry.page = pte.page
  sharedAnon : g.kind pte.proc pte.va = some .sharedAnon → ∀ entry ∈ cache, entry.page ≠ pte.page
  /-- copy-on-write leaves are private -/
  cow : pte.perm.cow = true → g.kind pte.proc pte.va = some .priv
  /-- a page of the cache that can be written is tracked for write-back -/
  tracked : pte.perm.w = true → ∀ entry ∈ cache, entry.page = pte.page → entry.writebackMapped = true

/-- **The invariant.** -/
structure Inv (g : Ghost Proc) (s : Machine Proc) (hand : Multiset Page) : Prop where
  counted : Counted s.refs (hand + s.held)
  live : ∀ page, s.allocated page = true ↔ s.refs page ≠ 0
  bound : ∀ page, s.refs page ≤ uint32Max
  calm : s.panic = none ∨ s.panic = some .putSigtrampoline
  pteKeys : Keyed Pte.key s.ptes
  mapped : ∀ pte ∈ s.ptes, Mappable g s.refs s.pins s.cache pte
  cacheKeys : Keyed CacheEntry.key s.cache
  cachePages : Keyed CacheEntry.page s.cache
  entries : ∀ entry ∈ s.cache, EntryOk s.files s.canWrite entry
  anonApart : ∀ a ∈ s.anon, ∀ entry ∈ s.cache, entry.page ≠ a.page
  /-- an entry without a mark has the bytes of the file -/
  clean : g.coherent → ∀ entry ∈ s.cache, entry.dirty = false → entry.writebackMapped = false →
    Synced s entry
  cached : g.coherent → ∀ entry ∈ s.cache, ∀ i < pgsize,
    entry.offset + i < (s.files entry.inode).size →
    s.data entry.page i = g.bytes entry.inode (entry.offset + i)
  uncached : g.coherent → ∀ inode x, x < (s.files inode).size →
    (∀ entry ∈ s.cache, entry.key ≠ (inode, pgrounddown x)) → (s.files inode).data x = g.bytes inode x
  /-- files have nothing behind their ends -/
  zeros : g.coherent → ∀ inode x, (s.files inode).size ≤ x → (s.files inode).data x = 0

variable {g : Ghost Proc} {s : Machine Proc} {hand : Multiset Page} {page : Page} {pte : Pte Proc}
  {entry : CacheEntry}

/-! ## Holders -/

theorem held_of_pte [DecidableEq Proc] (h : pte ∈ s.ptes) : s.held = pte.page ::ₘ (s.clearPte pte).held := by
  unfold held clearPte
  simp only [refsOf_erase h, cons_add]

theorem held_of_entry (h : entry ∈ s.cache) :
    s.held = entry.page ::ₘ ({ s with cache := s.cache.erase entry } : Machine Proc).held := by
  unfold held
  simp only [refsOf_erase h, cons_add, add_cons]

/-- Who holds a page, counted by kind of holder. -/
theorem count_held : s.held.count page =
    (refsOf Pte.page s.ptes).count page + (refsOf CacheEntry.page s.cache).count page +
    (refsOf AnonPage.page s.anon).count page + (refsOf Table.page s.tables).count page +
    s.pins.count page + s.kernel.count page := by
  unfold held
  simp only [count_add, coe_count]

theorem Inv.refs_eq (h : Inv g s hand) (page : Page) : s.refs page = hand.count page +
    ((refsOf Pte.page s.ptes).count page + (refsOf CacheEntry.page s.cache).count page +
    (refsOf AnonPage.page s.anon).count page + (refsOf Table.page s.tables).count page +
    s.pins.count page + s.kernel.count page) := by
  rw [h.counted page, count_add, count_held]

theorem pte_count_pos (h : pte ∈ s.ptes) : 0 < (refsOf Pte.page s.ptes).count pte.page :=
  count_pos.mpr (mem_refsOf_of_mem h)

theorem entry_count_pos (h : entry ∈ s.cache) : 0 < (refsOf CacheEntry.page s.cache).count entry.page :=
  count_pos.mpr (mem_refsOf_of_mem h)

/-- Two leaves of one page count twice. -/
theorem pte_count_two [DecidableEq Proc] {other : Pte Proc} (h : pte ∈ s.ptes) (h' : other ∈ s.ptes)
    (hne : other ≠ pte) (hp : other.page = pte.page) : 2 ≤ (refsOf Pte.page s.ptes).count pte.page := by
  rw [refsOf_erase h, count_cons_self]
  have hmem : other ∈ s.ptes.erase pte := (List.mem_erase_of_ne hne).mpr h'
  have := count_pos.mpr (mem_refsOf_of_mem (f := Pte.page) hmem)
  rw [hp] at this
  omega

/-- **A writable page of a private area has no other holder than pins.** -/
theorem Inv.exclusive_only [DecidableEq Proc] (h : Inv g s hand) (hp : pte ∈ s.ptes) (hw : pte.perm.w = true)
    (hk : g.kind pte.proc pte.va = some .priv) :
    pte.page ∉ hand ∧ (∀ other ∈ s.ptes, other.page = pte.page → other = pte) ∧
    (∀ entry ∈ s.cache, entry.page ≠ pte.page) ∧ (∀ a ∈ s.anon, a.page ≠ pte.page) := by
  have hrefs := h.refs_eq pte.page
  rw [(h.mapped pte hp).exclusive hw hk] at hrefs
  have hpos := pte_count_pos hp
  refine ⟨fun hm => ?_, fun other ho he => ?_, fun entry he hpage => ?_, fun a ha hpage => ?_⟩
  · have := count_pos.mpr hm
    omega
  · by_contra hne
    have := pte_count_two hp ho hne he
    omega
  · have := entry_count_pos he
    rw [hpage] at this
    omega
  · have := count_pos.mpr (mem_refsOf_of_mem (f := AnonPage.page) ha)
    rw [hpage] at this
    omega

/-- A page only the cache has is mapped nowhere. -/
theorem Inv.sole_entry (h : Inv g s hand) (he : entry ∈ s.cache) (hone : s.refs entry.page = 1) :
    ∀ pte ∈ s.ptes, pte.page ≠ entry.page := by
  intro pte hp hpage
  have hrefs := h.refs_eq entry.page
  have h1 := entry_count_pos he
  have h2 := pte_count_pos hp
  rw [hpage] at h2
  omega

/-- A page nobody holds yet but the code. -/
theorem Inv.fresh (h : Inv g s (page ::ₘ hand)) (hone : s.refs page = 1) :
    (∀ pte ∈ s.ptes, pte.page ≠ page) ∧ (∀ entry ∈ s.cache, entry.page ≠ page) ∧
    (∀ a ∈ s.anon, a.page ≠ page) ∧ s.pins.count page = 0 := by
  have hrefs := h.refs_eq page
  rw [count_cons_self, hone] at hrefs
  refine ⟨fun pte hp hpage => ?_, fun entry he hpage => ?_, fun a ha hpage => ?_, by omega⟩
  · have := pte_count_pos hp
    rw [hpage] at this
    omega
  · have := entry_count_pos he
    rw [hpage] at this
    omega
  · have := count_pos.mpr (mem_refsOf_of_mem (f := AnonPage.page) ha)
    rw [hpage] at this
    omega

/-- A page with references is not free. -/
theorem Inv.not_held (h : Inv g s hand) (hzero : s.refs page = 0) :
    page ∉ hand ∧ (∀ pte ∈ s.ptes, pte.page ≠ page) ∧ (∀ entry ∈ s.cache, entry.page ≠ page) := by
  have hrefs := h.refs_eq page
  rw [hzero] at hrefs
  refine ⟨fun hm => ?_, fun pte hp hpage => ?_, fun entry he hpage => ?_⟩
  · have := count_pos.mpr hm
    omega
  · have := pte_count_pos hp
    rw [hpage] at this
    omega
  · have := entry_count_pos he
    rw [hpage] at this
    omega

/-! ## Lookups -/

variable {proc : Proc} {va inode offset : Nat}

theorem Inv.findPte_eq_some [DecidableEq Proc] (h : Inv g s hand) :
    s.findPte proc va = some pte ↔ pte ∈ s.ptes ∧ pte.key = (proc, va) :=
  h.pteKeys.find?_eq_some fun pte => by
    rw [decide_eq_true_iff]
    exact Prod.mk_inj.symm

theorem findPte_eq_none [DecidableEq Proc] : s.findPte proc va = none ↔ ∀ pte ∈ s.ptes, pte.key ≠ (proc, va) :=
  find?_key_eq_none fun pte => by
    rw [decide_eq_true_iff]
    exact Prod.mk_inj.symm

theorem Inv.pageCacheFind_eq_some (h : Inv g s hand) :
    s.pageCacheFind inode offset = some entry ↔ entry ∈ s.cache ∧ entry.key = (inode, offset) :=
  h.cacheKeys.find?_eq_some fun entry => by
    rw [decide_eq_true_iff]
    exact Prod.mk_inj.symm

theorem pageCacheFind_eq_none :
    s.pageCacheFind inode offset = none ↔ ∀ entry ∈ s.cache, entry.key ≠ (inode, offset) :=
  find?_key_eq_none fun entry => by
    rw [decide_eq_true_iff]
    exact Prod.mk_inj.symm

/-- What `palloc_refcount` says. -/
theorem Inv.pallocRefcount_eq (h : Inv g s hand) (page : Page) : pallocRefcount s page = s.refs page := by
  unfold pallocRefcount
  split_ifs with ha
  · rfl
  · by_contra hne
    exact ha ((h.live page).mpr (Ne.symm hne))

end Caffeinix.Mm
