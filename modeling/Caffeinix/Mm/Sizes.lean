import Caffeinix.Mm.Processes

/-!
# `Mm.Sizes` — the invariant through stores, writes and changes of size

Here the bytes of files change, and with them what is claimed about them. A store through a shared mapping
changes the page in the cache (`MemInv.userStore`); `write` changes the file and refreshes the cached pages
(`Inv.writeRefresh`); `truncate` clears what it cuts off and what it adds. `fallocate`, and a write that
stores nothing, make a file longer without looking at its last cached page: they need that there is nothing
behind the old end (`TailZero`).
-/

namespace Caffeinix.Mm

open List Vma Machine
open Function (update update_eq_self update_idem update_of_ne update_self)

variable {Proc : Type} {g : Ghost Proc} {s s' : Machine Proc}
  {hand : Multiset Page} {page : Page} {pte : Pte Proc} {proc : Proc} {bytes : Nat → Nat → UInt8}
  {coherent : Prop} {entry : CacheEntry} {inode : Nat}

/-- What is claimed about the bytes of files, with new ones for one file. -/
def Ghost.set (g : Ghost Proc) (inode : Nat) (data : Nat → UInt8) : Ghost Proc :=
  ⟨g.kind, update g.bytes inode data, g.coherent⟩

/-- **One file and its cached pages change.** -/
theorem Inv.rewrite (h : Inv g s hand) (inode : Nat) (f : File) (data : Page → Nat → UInt8) (new : Nat → UInt8)
    (hbelow : ∀ entry ∈ s.cache, entry.inode = inode → entry.offset < f.size)
    (hother : ∀ entry ∈ s.cache, entry.inode ≠ inode → data entry.page = s.data entry.page)
    (hcached : g.coherent → ∀ entry ∈ s.cache, entry.inode = inode → ∀ i < pgsize,
      entry.offset + i < f.size → data entry.page i = new (entry.offset + i))
    (hclean : g.coherent → ∀ entry ∈ s.cache, entry.inode = inode → entry.dirty = false →
      entry.writebackMapped = false → ∀ i < pgsize, entry.offset + i < f.size →
      data entry.page i = f.data (entry.offset + i))
    (huncached : g.coherent → ∀ x < f.size, (∀ entry ∈ s.cache, entry.key ≠ (inode, pgrounddown x)) →
      f.data x = new x)
    (hzeros : g.coherent → ∀ x, f.size ≤ x → f.data x = 0) :
    Inv (g.set inode new) { s with files := update s.files inode f, data := data } hand := by
  refine { h with
    mapped := fun pte hp => { h.mapped pte hp with }
    entries := fun entry he => ?_
    clean := fun hc entry he hd hw i hi hx => ?_
    cached := fun hc entry he i hi hx => ?_
    uncached := fun hc other x hx hnone => ?_
    zeros := fun hc other x hx => ?_ }
  · have hok := h.entries entry he
    refine ⟨hok.page, ?_, hok.file, hok.writable⟩
    show entry.offset < (update s.files inode f entry.inode).size
    by_cases hi : entry.inode = inode
    · rw [hi, update_self]
      exact hbelow entry he hi
    · rw [update_of_ne hi]
      exact hok.below
  · show data entry.page i = (update s.files inode f entry.inode).data (entry.offset + i)
    have hx : entry.offset + i < (update s.files inode f entry.inode).size := hx
    by_cases hin : entry.inode = inode
    · rw [hin, update_self] at hx ⊢
      exact hclean hc entry he hin hd hw i hi hx
    · rw [update_of_ne hin] at hx ⊢
      rw [hother entry he hin]
      exact h.clean hc entry he hd hw i hi hx
  · show data entry.page i = update g.bytes inode new entry.inode (entry.offset + i)
    have hx : entry.offset + i < (update s.files inode f entry.inode).size := hx
    by_cases hin : entry.inode = inode
    · rw [hin, update_self] at hx ⊢
      exact hcached hc entry he hin i hi hx
    · rw [update_of_ne hin] at hx ⊢
      rw [hother entry he hin]
      exact h.cached hc entry he i hi hx
  · show (update s.files inode f other).data x = update g.bytes inode new other x
    have hx : x < (update s.files inode f other).size := hx
    by_cases hin : other = inode
    · rw [hin, update_self] at hx ⊢
      rw [hin] at hnone
      rw [update_self]
      exact huncached hc x hx hnone
    · rw [update_of_ne hin] at hx ⊢
      rw [update_of_ne hin]
      exact h.uncached hc other x hx hnone
  · show (update s.files inode f other).data x = 0
    have hx : (update s.files inode f other).size ≤ x := hx
    by_cases hin : other = inode
    · rw [hin, update_self] at hx ⊢
      exact hzeros hc x hx
    · rw [update_of_ne hin] at hx ⊢
      exact h.zeros hc other x hx

/-! ## Stores -/

/-- **A byte of a cached page is stored**, through a leaf that is tracked for write-back. -/
theorem Inv.storeEntry {k : Nat} (h : Inv g s hand) (he : entry ∈ s.cache)
    (htrack : entry.writebackMapped = true) (hk : k < pgsize) (byte : UInt8) :
    Inv (g.set entry.inode (update (g.bytes entry.inode) (entry.offset + k) byte))
      (s.setData entry.page (update (s.data entry.page) k byte)) hand := by
  have hok := h.entries entry he
  -- the bytes of another page of the file are others
  have hapart : ∀ other ∈ s.cache, other ≠ entry → other.inode = entry.inode → ∀ i < pgsize,
      other.offset + i ≠ entry.offset + k := by
    intro other ho hne hin i hi heq
    refine hne (h.cacheKeys.inj ho he ?_)
    rw [← entry_byte_key (h.entries other ho) hi, ← entry_byte_key hok hk, hin, heq]
  have hdata : ∀ other ∈ s.cache, other ≠ entry →
      update s.data entry.page (update (s.data entry.page) k byte) other.page =
        s.data other.page := fun other ho hne =>
    update_of_ne (fun hp => hne (h.cachePages.inj ho he hp)) _ _
  have hfile := h.rewrite entry.inode (s.files entry.inode)
    (update s.data entry.page (update (s.data entry.page) k byte))
    (update (g.bytes entry.inode) (entry.offset + k) byte)
    (fun other ho hin => by rw [← hin]; exact (h.entries other ho).below)
    (fun other ho hin => hdata other ho fun hoe => hin (congrArg CacheEntry.inode hoe))
    (fun hc other ho hin i hi hx => ?_)
    (fun hc other ho hin hd hw i hi hx => ?_)
    (fun hc x hx hnone => ?_) fun hc => h.zeros hc entry.inode
  · rwa [update_eq_self] at hfile
  · have hold := h.cached hc other ho i hi (by rw [hin]; exact hx)
    by_cases hoe : other = entry
    · subst hoe
      rw [update_self]
      by_cases hik : i = k
      · rw [hik, update_self, update_self]
      · rw [update_of_ne hik, update_of_ne (by omega)]
        exact hold
    · rw [hdata other ho hoe, update_of_ne (hapart other ho hoe hin i hi), hold, hin]
  · have hoe : other ≠ entry := fun hoe => by
      rw [hoe, htrack] at hw
      exact absurd hw (by decide)
    rw [hdata other ho hoe, h.clean hc other ho hd hw i hi (by rw [hin]; exact hx), hin]
  · have hne : x ≠ entry.offset + k := fun hxe => hnone entry he (by rw [hxe, entry_byte_key hok hk])
    rw [update_of_ne hne]
    exact h.uncached hc entry.inode x hx hnone

/-- The bytes of files after a store: one through a shared mapping of a file changes a byte of the file. -/
def stored [DecidableEq Proc] (s : Machine Proc) (proc : Proc) (va : Nat) (byte : UInt8) (bytes : Nat → Nat → UInt8) :
    Nat → Nat → UInt8 :=
  match s.findPte proc (pgrounddown va), kinds s.vmas proc (pgrounddown va) with
  | some pte, some (.sharedFile inode offset) =>
    if pte.perm.u && pte.perm.w then
      update bytes inode (update (bytes inode) (offset + va % pgsize) byte)
    else bytes
  | _, _ => bytes

/-- **A store of a user program.** -/
theorem MemInv.userStore [Fintype Proc] [DecidableEq Proc] (h : MemInv bytes coherent s) (proc : Proc) (va : Nat)
    (byte : UInt8) : MemInv (stored s proc va byte bytes) coherent (userStore s proc va byte) := by
  have hi := h.inv
  unfold Mm.userStore stored
  cases hfind : s.findPte proc (pgrounddown va) with
  | none => exact h
  | some pte =>
    obtain ⟨hp, hkey⟩ := hi.findPte_eq_some.mp hfind
    obtain ⟨rfl, hva⟩ := Prod.mk_inj.mp hkey
    have hm := hi.mapped pte hp
    rw [← hva]
    simp only
    by_cases hperm : (pte.perm.u && pte.perm.w) = true
    · have hw : pte.perm.w = true := (Bool.and_eq_true_iff.mp hperm).2
      rw [if_neg (by simpa using Bool.and_eq_true_iff.mp hperm)]
      have hset : Inv ⟨kinds s.vmas, bytes, coherent⟩ (s.setPte pte { pte with d := true }) 0 :=
        hi.setPte hp rfl rfl { hm with }
      cases hk : kinds s.vmas pte.proc pte.va with
      | none => exact absurd hk hm.covered
      | some kind =>
        cases kind with
        | priv =>
          -- a writable private page is nobody else's
          exact h.keep (hset.setData _ (hi.exclusive_only hp hw hk).2.2.1) rfl
        | sharedAnon => exact h.keep (hset.setData _ (hm.sharedAnon hk)) rfl
        | sharedFile inode offset =>
          obtain ⟨entry, he, hkey, hpage⟩ := hm.sharedFile inode offset hk
          obtain ⟨rfl, rfl⟩ := Prod.mk_inj.mp hkey
          simp only [hperm, if_true]
          have hstore := hset.storeEntry he (hm.tracked hw entry he hpage) (Nat.mod_lt va pgsize_pos) byte
          rw [hpage] at hstore
          exact h.keep hstore rfl
    · rw [if_pos (by rw [← Bool.not_and, Bool.eq_false_iff.mpr hperm]; rfl)]
      split
      · rename_i hsome _
        obtain rfl := Option.some.inj hsome
        rw [if_neg hperm]
        exact h
      · exact h

/-! ## Writes -/

/-- The bytes of a file after `content` was written at `position` and its size changed: what it grew by and
    was not written is zero. -/
def rewritten (old : Nat → UInt8) (size size' position : Nat) (content : List UInt8) : Nat → UInt8 := fun x =>
  if position ≤ x ∧ x < position + content.length then content.getD (x - position) 0
  else if size ≤ x ∧ x < size' then 0
  else old x

/-- There is nothing behind the old end in the cached pages of a file, up to the new end. -/
def TailZero (s : Machine Proc) (inode size size' : Nat) : Prop :=
  ∀ entry ∈ s.cache, entry.inode = inode → ∀ i < pgsize, size ≤ entry.offset + i →
    entry.offset + i < size' → s.data entry.page i = 0

variable {size finish offset oldSize : Nat} {file : VfsFile}

theorem rewritten_nothing {old : Nat → UInt8} {size' : Nat} {position : Nat} (h : size' ≤ size) :
    rewritten old size size' position [] = old := by
  funext x
  unfold rewritten
  rw [if_neg (by rw [length_nil]; omega), if_neg (by omega)]

/-- Two writes, the second one right behind the first. -/
theorem rewritten_append {old : Nat → UInt8} {size₁ size₂ position : Nat} {c₁ c₂ : List UInt8}
    (h1 : size ≤ size₁) (h2 : size₁ ≤ size₂) (hc : position + c₁.length ≤ size₁) :
    rewritten (rewritten old size size₁ position c₁) size₁ size₂ (position + c₁.length) c₂ =
      rewritten old size size₂ position (c₁ ++ c₂) := by
  funext x
  unfold rewritten
  rw [length_append]
  by_cases hx1 : position ≤ x ∧ x < position + c₁.length
  · rw [if_neg (by omega), if_neg (by omega), if_pos hx1, if_pos (by omega),
      getD_append _ _ _ _ (by omega)]
  by_cases hx2 : position + c₁.length ≤ x ∧ x < position + c₁.length + c₂.length
  · rw [if_pos hx2, if_pos (by omega), getD_append_right _ _ _ _ (by omega), Nat.sub_sub]
  have hx12 : ¬ (position ≤ x ∧ x < position + (c₁.length + c₂.length)) := by omega
  rw [if_neg hx2, if_neg hx1, if_neg hx12]
  by_cases hx3 : size₁ ≤ x ∧ x < size₂
  · rw [if_pos hx3, if_pos (by omega)]
  · rw [if_neg hx3]
    by_cases hx4 : size ≤ x ∧ x < size₁
    · rw [if_pos hx4, if_pos (by omega)]
    · rw [if_neg hx4, if_neg (by omega)]

section
variable (g : Ghost Proc) (inode : Nat)

theorem Ghost.set_self : g.set inode (g.bytes inode) = g := by
  unfold Ghost.set
  rw [update_eq_self]

theorem Ghost.set_set (a b : Nat → UInt8) : (g.set inode a).set inode b = g.set inode b := by
  unfold Ghost.set
  rw [update_idem]

end

/-- **A file grows without a look at the cache.** -/
theorem Inv.grow (h : Inv g s hand) (f : File) (hsize : (s.files inode).size ≤ f.size)
    (hdata : g.coherent → ∀ x, f.data x = (s.files inode).data x)
    (htail : g.coherent → TailZero s inode (s.files inode).size f.size) (position : Nat) :
    Inv (g.set inode (rewritten (g.bytes inode) (s.files inode).size f.size position []))
      { s with files := update s.files inode f } hand := by
  have hnew : ∀ x, x < f.size → rewritten (g.bytes inode) (s.files inode).size f.size position [] x =
      if x < (s.files inode).size then g.bytes inode x else 0 := by
    intro x hx
    unfold rewritten
    rw [if_neg (by rw [length_nil]; omega)]
    by_cases hold : x < (s.files inode).size
    · rw [if_neg (by omega), if_pos hold]
    · rw [if_pos (by omega), if_neg hold]
  refine h.rewrite inode f s.data _ (fun entry he hin => ?_) (fun _ _ _ => rfl)
    (fun hc entry he hin i hi hx => ?_) (fun hc entry he hin hd hw i hi hx => ?_) (fun hc x hx hnone => ?_)
    fun hc x hx => ?_
  · have := (h.entries entry he).below
    rw [hin] at this
    omega
  · rw [hnew _ hx]
    split
    · rename_i hold
      rw [h.cached hc entry he i hi (by rw [hin]; exact hold), hin]
    · exact htail hc entry he hin i hi (by omega) hx
  · rw [hdata hc]
    by_cases hold : entry.offset + i < (s.files inode).size
    · rw [h.clean hc entry he hd hw i hi (by rw [hin]; exact hold), hin]
    · rw [htail hc entry he hin i hi (by omega) hx, h.zeros hc inode _ (by omega)]
  · rw [hdata hc, hnew x hx]
    split
    · rename_i hold
      exact h.uncached hc inode x hold hnone
    · rw [h.zeros hc inode _ (by omega)]
  · rw [hdata hc]
    exact h.zeros hc inode x (hsize.trans hx)

/-! ## `page_cache_refresh` -/

/-- What `page_cache_refresh` makes of the page of an entry. -/
def refreshed (s : Machine Proc) (file : VfsFile) (offset finish oldSize : Nat) (entry : CacheEntry) :
    Nat → UInt8 := (refreshEntry file offset finish oldSize s entry).data entry.page

theorem refreshEntry_eq (file : VfsFile) (offset finish oldSize : Nat) (s : Machine Proc) (entry : CacheEntry) :
    refreshEntry file offset finish oldSize s entry =
      s.setData entry.page (refreshed s file offset finish oldSize entry) := by
  unfold refreshed refreshEntry
  split
  · unfold setData
    rw [update_eq_self]
  · unfold setData
    simp only [update_self]

theorem refreshed_congr (hfiles : s'.files = s.files) (hdata : s'.data entry.page = s.data entry.page) :
    refreshed s' file offset finish oldSize entry = refreshed s file offset finish oldSize entry := by
  unfold refreshed refreshEntry
  split
  · exact hdata
  · unfold setData
    simp only [update_self, hfiles, hdata]

/-- **The loop of `page_cache_refresh`** does its work on the page of every entry. -/
theorem foldl_refreshEntry (file : VfsFile) (offset finish oldSize : Nat) (l : List CacheEntry) :
    ∀ s : Machine Proc, Keyed CacheEntry.page l →
    ∃ data, l.foldl (refreshEntry file offset finish oldSize) s = { s with data := data } ∧
      (∀ entry ∈ l, data entry.page = refreshed s file offset finish oldSize entry) ∧
      ∀ page, (∀ entry ∈ l, entry.page ≠ page) → data page = s.data page := by
  induction l with
  | nil => intro s _; exact ⟨s.data, rfl, fun _ he => absurd he not_mem_nil, fun _ _ => rfl⟩
  | cons entry l ih =>
    intro s hkeyed
    obtain ⟨hne, hkeyed⟩ := keyed_cons.mp hkeyed
    rw [foldl_cons, refreshEntry_eq]
    obtain ⟨data, h1, h2, h3⟩ := ih (s.setData entry.page (refreshed s file offset finish oldSize entry)) hkeyed
    refine ⟨data, h1, fun other ho => ?_, fun page hp => ?_⟩
    · rcases mem_cons.mp ho with rfl | ho
      · exact (h3 _ hne).trans (update_self ..)
      · exact (h2 other ho).trans (refreshed_congr rfl (update_of_ne (hne other ho) _ _))
    · rw [h3 page fun other ho => hp other (mem_cons_of_mem _ ho)]
      exact update_of_ne (Ne.symm (hp entry mem_cons_self)) _ _

/-- The bytes of a refreshed page: nothing between the old end and the write, then what was written. -/
theorem refreshed_apply (hin : entry.inode = file.inode) {i : Nat} (hi : i < pgsize)
    (hoff : offset ≤ finish) :
    refreshed s file offset finish oldSize entry i =
      if oldSize ≤ entry.offset + i ∧ entry.offset + i < offset then 0
      else if offset ≤ entry.offset + i ∧ entry.offset + i < finish then
        (s.files file.inode).data (entry.offset + i)
      else s.data entry.page i := by
  unfold refreshed refreshEntry
  split
  · rename_i hskip
    simp only [hin, ne_eq, not_true_eq_false, decide_false, Bool.false_or, Bool.or_eq_true, decide_eq_true_eq,
      ge_iff_le, Nat.le_min] at hskip
    rw [if_neg (by omega), if_neg (by omega)]
  · unfold setData
    simp only [update_self, Bool.and_eq_true, decide_eq_true_eq]

/-- The file and its cached pages after `file_write` and `page_cache_refresh`. -/
theorem Inv.writeRefreshed (h : Inv g s hand) (content : List UInt8) {position uncounted : Nat}
    (source : Nat → UInt8) (hpos : content ≠ []) (huncounted : g.coherent → uncounted = 0)
    (hsource : ∀ i < content.length, source i = content.getD i 0) :
    let f := (s.files file.inode).write position content.length uncounted source
    let s' := { s with files := update s.files file.inode f }
    ∃ data, Mm.pageCacheRefresh s' file position content.length (s.files file.inode).size =
      { s' with data := data } ∧
    Inv (g.set file.inode (rewritten (g.bytes file.inode) (s.files file.inode).size f.size position content))
      { s' with data := data } hand := by
  intro f s'
  have hlen : content.length ≠ 0 := fun hz => hpos (length_eq_zero_iff.mp hz)
  have hsize : f.size = max (s.files file.inode).size (position + content.length) := rfl
  have hdata : ∀ x, f.data x = if position ≤ x ∧ x < position + content.length + uncounted then source (x - position)
      else (s.files file.inode).data x := fun _ => rfl
  unfold Mm.pageCacheRefresh
  rw [if_neg hlen]
  obtain ⟨data, h1, h2, h3⟩ := foldl_refreshEntry file position (position + content.length)
    (s.files file.inode).size s.cache { s with files := update s.files file.inode f } h.cachePages
  refine ⟨data, h1, ?_⟩
  have hpage : ∀ entry ∈ s.cache, entry.inode = file.inode → ∀ i < pgsize, data entry.page i =
      if (s.files file.inode).size ≤ entry.offset + i ∧ entry.offset + i < position then 0
      else if position ≤ entry.offset + i ∧ entry.offset + i < position + content.length then
        source (entry.offset + i - position)
      else s.data entry.page i := by
    intro entry he hin i hi
    rw [h2 entry he, refreshed_apply hin hi (Nat.le_add_right _ _)]
    simp only [update_self, hdata]
    split
    · rfl
    · split
      · rw [if_pos (by omega)]
      · rfl
  have hnew : ∀ x, x < f.size → rewritten (g.bytes file.inode) (s.files file.inode).size f.size position content
      x = if (s.files file.inode).size ≤ x ∧ x < position then 0
      else if position ≤ x ∧ x < position + content.length then source (x - position)
      else g.bytes file.inode x := by
    intro x hx
    unfold rewritten
    by_cases hw : position ≤ x ∧ x < position + content.length
    · rw [if_pos hw, if_neg (by omega), if_pos hw, hsource _ (by omega)]
    · rw [if_neg hw]
      by_cases hg : (s.files file.inode).size ≤ x ∧ x < position
      · rw [if_pos hg, if_pos (by omega)]
      · rw [if_neg hg, if_neg hw, if_neg (by omega)]
  refine h.rewrite file.inode f data _ (fun entry he hin => ?_) (fun entry he hin => ?_)
    (fun hc entry he hin i hi hx => ?_) (fun hc entry he hin hd hw i hi hx => ?_) (fun hc x hx hnone => ?_)
    fun hc x hx => ?_
  · have := (h.entries entry he).below
    rw [hin] at this
    omega
  · rw [h2 entry he]
    unfold refreshed refreshEntry
    rw [if_pos (by simp [hin])]
  · rw [hpage entry he hin i hi, hnew _ hx]
    split
    · rfl
    · split
      · rfl
      · rw [h.cached hc entry he i hi (by rw [hin]; omega), hin]
  · rw [hpage entry he hin i hi, hdata, huncounted hc, Nat.add_zero]
    split
    · rw [if_neg (by omega), h.zeros hc file.inode _ (by omega)]
    · split
      · rfl
      · rw [h.clean hc entry he hd hw i hi (by rw [hin]; omega), hin]
  · rw [hdata, hnew x hx, huncounted hc, Nat.add_zero]
    split
    · rename_i hw
      rw [if_neg (by omega)]
    · rename_i hw
      split
      · rw [h.zeros hc file.inode _ (by omega)]
      · exact h.uncached hc file.inode x (by omega) hnone
  · rw [hdata, huncounted hc, if_neg (by omega)]
    exact h.zeros hc file.inode x (by omega)

/-! ## The calls -/

/-- What a call that writes `content` at `position` leaves, given the number of bytes it has stored. -/
structure Wrote (g : Ghost Proc) (s s' : Machine Proc) (hand : Multiset Page) (inode position count : Nat)
    (content : List UInt8) : Prop where
  inv : Inv (g.set inode (rewritten (g.bytes inode) (s.files inode).size (s'.files inode).size position
    (content.take count))) s' hand
  vmas : s'.vmas = s.vmas
  size : (s.files inode).size ≤ (s'.files inode).size

/-- Nothing has happened. -/
theorem Inv.wroteNothing (h : Inv g s' hand) (hfiles : s'.files = s.files) (hv : s'.vmas = s.vmas)
    (inode : Nat) {position : Nat} {content : List UInt8} : Wrote g s s' hand inode position 0 content := by
  refine ⟨?_, hv, by rw [hfiles]⟩
  rw [hfiles, take_zero, rewritten_nothing le_rfl, Ghost.set_self]
  exact h

/-- No byte of a chunk is copied whose copy fails: the copies do not fail, or at their first byte. -/
def Uncopied (copied : Option Nat) (length room : Nat) : Prop := copied.getD 0 = 0 ∨ length ≤ room

theorem Uncopied.mono {copied : Option Nat} {length room length' room' : Nat} (h : Uncopied copied length room)
    (hle : length ≤ room → length' ≤ room') : Uncopied copied length' room' := h.imp_right hle

/-- **`file_write` and `page_cache_refresh`.** -/
theorem Inv.writeRefresh (h : Inv g s hand) (file : VfsFile) (content : List UInt8) (position room : Nat)
    (copied : Option Nat) (hall : g.coherent → Uncopied copied content.length room)
    (htail : g.coherent → min content.length room = 0 →
      TailZero s file.inode (s.files file.inode).size position) :
    let r := writeRefresh s file content position room copied (s.files file.inode).size
    Wrote g s r.1 hand file.inode position r.2.toNat content ∧ r.2.toNat ≤ content.length ∧
    (0 ≤ r.2 → (r.1.files file.inode).size = max (s.files file.inode).size (position + r.2.toNat)) := by
  unfold Mm.writeRefresh fileWrite
  by_cases hw : s.canWrite file = true
  · by_cases hlen : content.length > uint64Max - position
    · simp only [hw, hlen, Bool.not_true, Bool.false_eq_true, if_false, if_true]
      exact ⟨h.wroteNothing rfl rfl _, Nat.zero_le _, fun hneg => absurd hneg (by decide)⟩
    simp only [hw, hlen, Bool.not_true, Bool.false_eq_true, if_false]
    have huncounted : g.coherent → min (copied.getD 0) (content.length - min content.length room) = 0 := by
      intro hc
      have hnone := hall hc
      unfold Uncopied at hnone
      omega
    generalize hcount : min content.length room = count at *
    generalize min (copied.getD 0) (content.length - count) = uncounted at *
    rcases Nat.eq_zero_or_pos count with rfl | hpos
    · -- nothing is stored, but the size follows the position
      generalize hres : (if (decide (0 = 0) && decide (content ≠ [])) = true then
        if copied.isSome = true then vfsErrIo else vfsErrNomem else ((0 : Nat) : Int)) = result
      have hnonpos : result ≤ 0 := by
        rw [← hres]
        split_ifs <;> decide
      rw [if_neg (by omega), show result.toNat = 0 by omega]
      have hgrow := h.grow ((s.files file.inode).write position 0 uncounted fun i => content.getD i 0)
        (Nat.le_max_left _ _) (fun hc x => if_neg (by rw [huncounted hc]; omega)) (fun hc => ?_) position
      · refine ⟨⟨?_, rfl, ?_⟩, Nat.zero_le _, fun _ => ?_⟩
        · simp only [update_self, take_zero]
          exact hgrow
        · simp only [update_self]
          exact Nat.le_max_left _ _
        · simp only [update_self]
          rfl
      · intro entry he hin i hi h1 h2
        have h2 : entry.offset + i < max (s.files file.inode).size (position + 0) := h2
        exact htail hc rfl entry he hin i hi h1 (by omega)
    · have hne : ¬ (decide (count = 0) && decide (content ≠ [])) = true := by
        simp only [Bool.and_eq_true, decide_eq_true_eq, not_and]
        omega
      rw [if_neg hne, if_pos (by omega), Int.toNat_natCast]
      have htake : (content.take count).length = count := by
        rw [length_take]
        omega
      obtain ⟨data, hstate, hinv⟩ := h.writeRefreshed (content.take count)
        (fun i => content.getD i 0)
        (fun hnil => by rw [hnil] at htake; exact absurd htake (by simp; omega)) huncounted
        fun i hi => by
          rw [getD_eq_getElem?_getD, getD_eq_getElem?_getD, List.getElem?_take,
            if_pos (by rw [htake] at hi; exact hi)]
      rw [htake] at hstate hinv
      rw [hstate]
      refine ⟨⟨?_, rfl, ?_⟩, by omega, fun _ => ?_⟩
      · simp only [update_self]
        exact hinv
      · simp only [update_self]
        exact Nat.le_max_left _ _
      · simp only [update_self]
        rfl
  · simp only [hw, Bool.not_false, if_true]
    exact ⟨h.wroteNothing rfl rfl _, Nat.zero_le _, fun hneg => absurd hneg (by decide)⟩

/-- **The loop of `vfs_writev`**: only the first write can begin behind the end of the file. -/
theorem Inv.writevLoop (file : VfsFile) (copied : Option Nat) (iovecs : List (List UInt8)) :
    ∀ (g : Ghost Proc) (s : Machine Proc) (position room total : Nat), Inv g s hand →
      (g.coherent → Uncopied copied iovecs.flatten.length room) →
      (g.coherent → ∀ content ∈ iovecs.head?, min content.length room = 0 →
        TailZero s file.inode (s.files file.inode).size position) →
      let r := writevLoop s file position room copied (s.files file.inode).size total iovecs
      Wrote g s r.1 hand file.inode position (r.2.toNat - total) iovecs.flatten ∧ total ≤ r.2.toNat := by
  induction iovecs with
  | nil =>
    intro g s position room total h _ _
    unfold Mm.writevLoop
    simp only
    rw [Int.toNat_natCast, Nat.sub_self]
    exact ⟨h.wroteNothing rfl rfl _, Nat.le_refl _⟩
  | cons content iovecs ih =>
    intro g s position room total h hall htail
    rw [flatten_cons, length_append] at hall
    obtain ⟨⟨hinv, hvmas, hsize⟩, hle, hend⟩ := h.writeRefresh file content position room copied
      (fun hc => (hall hc).mono (by omega)) fun hc => htail hc content (by simp)
    unfold Mm.writevLoop
    generalize Mm.writeRefresh s file content position room copied (s.files file.inode).size = W at *
    obtain ⟨sW, result⟩ := W
    simp only at hinv hvmas hsize hle hend ⊢
    split
    · -- an error: what was stored before counts
      rename_i hneg
      have hzero : result.toNat = 0 := by omega
      have hret : (if total ≠ 0 then (total : Int) else result).toNat = total := by
        split
        · rw [Int.toNat_natCast]
        · omega
      rw [hret, Nat.sub_self]
      rw [hzero] at hinv
      exact ⟨⟨hinv, hvmas, hsize⟩, Nat.le_refl _⟩
    · rename_i hneg
      have hend := hend (Int.not_lt.mp hneg)
      split
      · -- a short write
        rw [Int.toNat_natCast, Nat.add_sub_cancel_left, flatten_cons]
        refine ⟨⟨?_, hvmas, hsize⟩, Nat.le_add_right _ _⟩
        rw [take_append_of_le_length hle]
        exact hinv
      rename_i hfull
      have hfull : result.toNat = content.length := not_not.mp hfull
      have hat : position + content.length ≤ (sW.files file.inode).size := by omega
      obtain ⟨⟨hinv', hvmas', hsize'⟩, htotal⟩ := ih _ sW (position + result.toNat) (room - result.toNat)
        (total + result.toNat) hinv (fun hc => (hall hc).mono (by omega)) fun _ _ _ _ entry _ _ i _ h1 h2 => by omega
      rw [← hend]
      generalize Mm.writevLoop sW file (position + result.toNat) (room - result.toNat) copied
        (sW.files file.inode).size (total + result.toNat) iovecs = R at *
      obtain ⟨sR, ret⟩ := R
      refine ⟨⟨?_, hvmas'.trans hvmas, hsize.trans hsize'⟩, by omega⟩
      -- the two pieces of content, one behind the other
      have hpieces : (content :: iovecs).flatten.take (ret.toNat - total) =
          content ++ iovecs.flatten.take (ret.toNat - (total + result.toNat)) := by
        rw [flatten_cons, ← take_length_add_append]
        congr 1
        omega
      rw [Ghost.set_set, hfull, take_length] at hinv'
      rw [hpieces, ← rewritten_append hsize hsize' hat, hfull]
      simpa only [Ghost.set, update_self] using hinv'

/-- A call outside the model changes nothing here. -/
theorem outcome_fst (s : Machine Proc) : ∃ rest, (outcome s).1 = { s with outcomes := rest } := by
  unfold outcome
  split
  · exact ⟨s.outcomes, rfl⟩
  · rename_i rest _
    exact ⟨rest, rfl⟩

/-- `vfs_inode_remove_privileges`, if there is anything to write. -/
theorem privileges_fst (s : Machine Proc) (p : Prop) [Decidable p] :
    ∃ rest, (if p then (s, true) else outcome s).1 = { s with outcomes := rest } := by
  split
  · exact ⟨s.outcomes, rfl⟩
  · exact outcome_fst s

/-- What `vfs_file_pwrite` and `vfs_writev` check first: a call that they refuse has written nothing. -/
theorem Inv.wroteAfter (h : Inv g s hand) (call : Machine Proc → Machine Proc × Int) {refused large outside p : Prop}
    {_ : Decidable refused} {_ : Decidable large} {_ : Decidable outside} {_ : Decidable p} {inode position : Nat}
    {content : List UInt8}
    (hcall : ∀ rest, Inv g { s with outcomes := rest } hand →
      Wrote g s (call { s with outcomes := rest }).1 hand inode position (call { s with outcomes := rest }).2.toNat
        content) :
    let privileges := if p then (s, true) else Mm.outcome s
    let r := if refused then (s, vfsErrBadf) else if large then (s, vfsErrInval)
      else if outside then (s, vfsErrInval)
      else if !privileges.2 then (privileges.1, vfsErrIo) else call privileges.1
    Wrote g s r.1 hand inode position r.2.toNat content := by
  intro privileges r
  obtain ⟨rest, hrest⟩ : ∃ rest, privileges.1 = { s with outcomes := rest } := privileges_fst s p
  have hP : Inv g { s with outcomes := rest } hand := { h with }
  unfold r
  rw [hrest]
  split_ifs
  · exact h.wroteNothing rfl rfl _
  · exact h.wroteNothing rfl rfl _
  · exact h.wroteNothing rfl rfl _
  · exact hP.wroteNothing (s := s) rfl rfl _
  · exact hcall rest hP

/-- **`vfs_file_pwrite`.** -/
theorem Inv.vfsFilePwrite (h : Inv g s hand) (file : VfsFile) (append : Bool) (content : List UInt8)
    (position room : Nat) (copied : Option Nat) (current : Bool)
    (hzeroed : g.coherent → Uncopied copied content.length room ∧ (min content.length room = 0 →
      TailZero s file.inode (s.files file.inode).size (writePosition s file append position))) :
    Wrote g s (vfsFilePwrite s file append content position room copied current).1 hand file.inode
      (writePosition s file append position)
      (vfsFilePwrite s file append content position room copied current).2.toNat content := by
  refine h.wroteAfter (Mm.writeRefresh · file content (writePosition s file append position) room copied
    (s.files file.inode).size) fun rest hrest => ?_
  obtain ⟨⟨h1, h2, h3⟩, _⟩ := hrest.writeRefresh file content (writePosition s file append position) room copied
    (fun hc => (hzeroed hc).1) fun hc => (hzeroed hc).2
  exact ⟨h1, h2, h3⟩

/-- **`vfs_writev`.** -/
theorem Inv.vfsWritev (h : Inv g s hand) (file : VfsFile) (append : Bool) (iovecs : List (List UInt8))
    (position room : Nat) (copied : Option Nat) (current : Bool)
    (hzeroed : g.coherent → Uncopied copied iovecs.flatten.length room ∧ ∀ content ∈ iovecs.head?,
      min content.length room = 0 →
      TailZero s file.inode (s.files file.inode).size (writePosition s file append position)) :
    Wrote g s (vfsWritev s file append iovecs position room copied current).1 hand file.inode
      (writePosition s file append position)
      (vfsWritev s file append iovecs position room copied current).2.toNat iovecs.flatten := by
  refine h.wroteAfter (Mm.writevLoop · file (writePosition s file append position) room copied
    (s.files file.inode).size 0 iovecs) fun rest hrest => ?_
  obtain ⟨⟨h1, h2, h3⟩, _⟩ := Inv.writevLoop file copied iovecs g _ (writePosition s file append position) room 0
    hrest (fun hc => (hzeroed hc).1) fun hc => (hzeroed hc).2
  exact ⟨h1, h2, h3⟩

end Caffeinix.Mm
