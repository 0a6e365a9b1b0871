import Caffeinix.Mm.Run

/-!
# `Mm.Isolation` — references and private pages, over every run

The reference count of every page is the number of its holders, by kind, and a page belongs to the allocator
exactly when it has none (`page_references`). A leaf with write permission in a private area is the only holder
of its page, pins apart, and a store through it shows nowhere else (`private_writable_alone`). The page tables
and the cache are in order (`memory_indexed`).
-/

namespace Caffeinix.Mm

open Vma Runs

variable {Proc : Type} [Fintype Proc] [DecidableEq Proc] {s : Machine Proc} {bytes : Nat → Nat → UInt8}
  {coherent : Prop} {pte : Pte Proc}

/-! ## References -/

/-- **Physical page reference accounting.** The kernel can stop in one way only, when the page of
    `USER_SIGRETURN` is put. -/
theorem page_references (files : Nat → File) (canRead canWrite : VfsFile → Bool) (superblock : Nat → Nat)
    (steps : List (Step Proc)) (page : Page) :
    let s := (.boot files canRead canWrite superblock : Machine Proc).run steps
    s.refs page = s.ptes.countP (fun pte => pte.page = page) + s.cache.countP (fun entry => entry.page = page) +
      s.anon.countP (fun a => a.page = page) + s.pins.count page +
      s.tables.countP (fun table => table.page = page) + s.kernel.count page ∧
    s.refs page ≤ uint32Max ∧ (s.allocated page = true ↔ s.refs page ≠ 0) ∧
    (s.panic = none ∨ s.panic = some .putSigtrampoline) := by
  intro s
  obtain ⟨bytes, h⟩ : ∃ bytes, MemInv bytes False s := MemInv.run files canRead canWrite superblock steps
  clear_value s
  refine ⟨?_, h.inv.bound page, h.inv.live page, h.inv.calm⟩
  have hrefs := h.inv.refs_eq page
  simp only [count_refsOf, Multiset.count_zero, Nat.zero_add] at hrefs
  omega

/-- A page table is a holder that is none of leaf, cache entry, page of a mapping and pin. -/
theorem table_page_reference :
    let s := (.boot (fun _ => ⟨0, fun _ => 0⟩) (fun _ => true) (fun _ => true)
      (fun _ => 0) : Machine Unit).run [⟨.spawn (), [some 1, some 2, some 3, some 4, some 5], []⟩]
    s.refs 1 = 1 ∧ s.ptes.countP (fun pte => pte.page = 1) + s.cache.countP (fun entry => entry.page = 1) +
      s.anon.countP (fun a => a.page = 1) + s.pins.count 1 = 0 := by
  decide +kernel

/-! ## Private pages -/

omit [Fintype Proc] in
/-- A store through a leaf does nothing, or it sets the dirty bit and a byte of the page. -/
theorem userStore_cases {va : Nat} (hfind : s.findPte pte.proc (pgrounddown va) = some pte) (byte : UInt8) :
    userStore s pte.proc va byte = s ∨ userStore s pte.proc va byte =
      (s.setPte pte { pte with d := true }).setData pte.page
        (Function.update (s.data pte.page) (va % pgsize) byte) := by
  unfold userStore
  rw [hfind]
  simp only
  split
  · exact .inl rfl
  · exact .inr rfl

/-- **Private-mapping isolation**, after any run: a leaf with write permission in a private area has a page with
    one reference, pins apart; no other leaf maps it and neither the page cache nor a shared mapping has it. So
    a store through it changes no file and no page that anybody else sees. -/
theorem private_writable_alone (files : Nat → File) (canRead canWrite : VfsFile → Bool) (superblock : Nat → Nat)
    (steps : List (Step Proc)) (pte : Pte Proc) (area : VmArea) :
    let s := (.boot files canRead canWrite superblock : Machine Proc).run steps
    pte ∈ s.ptes → vmaFind pte.va (s.vmas.sets pte.proc) = some area → areaPrivate area = true →
    pte.perm.w = true →
    s.refs pte.page = 1 + s.pins.count pte.page ∧
    (∀ other ∈ s.ptes, other.page = pte.page → other = pte) ∧
    (∀ entry ∈ s.cache, entry.page ≠ pte.page) ∧ (∀ a ∈ s.anon, a.page ≠ pte.page) ∧
    ∀ va byte, pgrounddown va = pte.va →
      let s' := userStore s pte.proc va byte
      s'.files = s.files ∧ s'.cache = s.cache ∧ s'.anon = s.anon ∧
      (∀ other ∈ s'.ptes, other.key ≠ pte.key → other ∈ s.ptes ∧ s'.data other.page = s.data other.page) ∧
      (∀ entry ∈ s.cache, s'.data entry.page = s.data entry.page) ∧
      (∀ a ∈ s.anon, s'.data a.page = s.data a.page) := by
  intro s hp hfind hpriv hw
  obtain ⟨bytes, h⟩ : ∃ bytes, MemInv bytes False s := MemInv.run files canRead canWrite superblock steps
  have hm := h.inv.mapped pte hp
  have hkind : kinds s.vmas pte.proc pte.va = some .priv := by
    have hpage : PageOf ⟨kinds s.vmas, bytes, False⟩ pte.proc (pgrounddown pte.va) area :=
      MemInv.knows.pageOf h.world hfind
    rw [pgrounddown_of_dvd hm.aligned] at hpage
    exact hpage.kind_priv.mpr hpriv
  obtain ⟨_, h2, h3, h4⟩ := h.inv.exclusive_only hp hw hkind
  refine ⟨hm.exclusive hw hkind, h2, h3, h4, fun va byte hva => ?_⟩
  intro s'
  rcases userStore_cases (h.inv.findPte_eq_some.mpr ⟨hp, by rw [hva]; rfl⟩) byte with hs' | hs'
  · rw [show s' = s from hs']
    exact ⟨rfl, rfl, rfl, fun other ho _ => ⟨ho, rfl⟩, fun _ _ => rfl, fun _ _ => rfl⟩
  rw [show s' = _ from hs']
  refine ⟨rfl, rfl, rfl, fun other ho hkey => ?_, fun entry he => Function.update_of_ne (h3 entry he) _ _,
    fun a ha => Function.update_of_ne (h4 a ha) _ _⟩
  rcases List.mem_cons.mp (show other ∈ _ :: s.ptes.erase pte from ho) with rfl | hmem
  · exact absurd rfl hkey
  · have hmem := List.mem_of_mem_erase hmem
    refine ⟨hmem, Function.update_of_ne (fun hpage => hkey ?_) _ _⟩
    rw [h2 other hmem hpage]

/-- A private anonymous page and the fault of the first store. -/
def storePrivate : List (Step Unit) :=
  [⟨.spawn (), [some 1, some 2, some 3, some 4, some 5], []⟩,
    ⟨.mmap () ⟨0x10000000, 4096, 3, 0x22, none, 0, 0, none, none, ⟨true, true⟩, ⟨true, true⟩⟩, [], []⟩,
    ⟨.fault () 0x10000000 .write, [some 6, some 7, some 8], [true, true, true]⟩]

theorem private_page_alone :
    let s := (.boot (fun _ => ⟨0, fun _ => 0⟩) (fun _ => true) (fun _ => true)
      (fun _ => 0) : Machine Unit).run storePrivate
    s.refs 6 = 1 + s.pins.count 6 ∧ ∀ entry ∈ s.cache, entry.page ≠ 6 := by
  intro s
  have h := private_writable_alone (fun _ => ⟨0, fun _ => 0⟩) (fun _ => true) (fun _ => true)
    (fun _ => 0) storePrivate ⟨(), 0x10000000, 6, ⟨true, true, false, true, false⟩, false⟩
    ⟨0x10000000, 0x10001000, 0, 0, 3, 2, .anonymous, .mmap, none, none⟩
    (by decide +kernel) (by decide +kernel) (by decide) (by decide)
  exact ⟨h.1, h.2.2.1⟩

/-! ## The page tables and the page cache -/

/-- What holds of the page tables and the page cache. -/
structure Indexed (s : Machine Proc) : Prop where
  /-- an address has one leaf at most, and only a page of an area has one -/
  leaves : (s.ptes.map Pte.key).Nodup
  covered : ∀ pte ∈ s.ptes, pgsize ∣ pte.va ∧ s.vmas.pages pte.proc pte.va ≠ none
  /-- a page that is to be copied when it is written to is private -/
  copied : ∀ pte ∈ s.ptes, pte.perm.cow = true → kinds s.vmas pte.proc pte.va = some .priv
  /-- a place in a file is cached once, and a page holds one place -/
  places : (s.cache.map CacheEntry.key).Nodup
  pages : (s.cache.map CacheEntry.page).Nodup
  inside : ∀ entry ∈ s.cache, pgsize ∣ entry.offset ∧ entry.offset < (s.files entry.inode).size
  /-- write-back knows of every cached page that can be stored to, and may write it -/
  tracked : ∀ pte ∈ s.ptes, pte.perm.w = true → ∀ entry ∈ s.cache, entry.page = pte.page →
    entry.writebackMapped = true ∧ s.canWrite entry.file = true

section
variable (files : Nat → File) (canRead canWrite : VfsFile → Bool) (superblock : Nat → Nat) (steps : List (Step Proc))

/-- **The page tables and the page cache are in order**, after any run. -/
theorem memory_indexed : Indexed ((.boot files canRead canWrite superblock : Machine Proc).run steps) := by
  obtain ⟨bytes, h⟩ := MemInv.run files canRead canWrite superblock steps
  generalize Machine.run _ steps = s at h
  have hm := h.inv.mapped
  exact {
    leaves := h.inv.pteKeys
    covered := fun pte hp => ⟨(hm pte hp).aligned, fun hno => (hm pte hp).covered (congrArg (·.map pageKind) hno)⟩
    copied := fun pte hp => (hm pte hp).cow
    places := h.inv.cacheKeys
    pages := h.inv.cachePages
    inside := fun entry he => ⟨(h.inv.entries entry he).page, (h.inv.entries entry he).below⟩
    tracked := fun pte hp hw entry he hpage => by
      have hmapped := (hm pte hp).tracked hw entry he hpage
      exact ⟨hmapped, (h.inv.entries entry he).writable (.inr hmapped)⟩ }

/-- **The shared mappings of a file are one**, after any run: all leaves for a place in a file, in whatever
    processes, map the page that the cache has for it, so a store through one of them is there for the others. -/
theorem shared_leaves_agree (inode offset : Nat) :
    let s := (.boot files canRead canWrite superblock : Machine Proc).run steps
    ∃ page, ∀ pte ∈ s.ptes, kinds s.vmas pte.proc pte.va = some (.sharedFile inode offset) →
      pte.page = page ∧ (s.pageCacheFind inode offset).map CacheEntry.page = some page ∧
      ∀ va byte, pgrounddown va = pte.va → pte.perm.u = true → pte.perm.w = true →
        (userStore s pte.proc va byte).data page = Function.update (s.data page) (va % pgsize) byte := by
  intro s
  obtain ⟨bytes, h⟩ : ∃ bytes, MemInv bytes False s := MemInv.run files canRead canWrite superblock steps
  clear_value s
  refine ⟨((s.pageCacheFind inode offset).map CacheEntry.page).getD 0, fun pte hp hk => ?_⟩
  obtain ⟨entry, he, hkey, hpage⟩ := (h.inv.mapped pte hp).sharedFile inode offset hk
  rw [h.inv.pageCacheFind_eq_some.mpr ⟨he, hkey⟩, Option.map_some, Option.getD_some, hpage]
  refine ⟨rfl, rfl, fun va byte hva hu hw => ?_⟩
  have hfind : s.findPte pte.proc (pgrounddown va) = some pte :=
    h.inv.findPte_eq_some.mpr ⟨hp, by rw [hva]; rfl⟩
  unfold userStore
  simp only [hfind, hu, hw, Bool.not_true, Bool.or_self, Bool.false_eq_true, if_false]
  exact Function.update_self ..

end

end Caffeinix.Mm
