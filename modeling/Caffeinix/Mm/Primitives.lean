import Caffeinix.Mm.Invariant

/-!
# `Mm.Primitives` — the invariant through the smallest steps

One lemma for each thing the memory code does to its state: taking and putting a page, writing and clearing a
leaf, adding, changing and releasing an entry of the page cache, and lists of such steps. Everything else
is composed of these.
-/

namespace Caffeinix.Mm

open List Vma
open Multiset (cons_add mem_cons_self add_cons)
open Function (update update_of_ne update_self)

variable {Proc : Type} {g : Ghost Proc} {s s' s'' : Machine Proc} {hand : Multiset Page}
  {page : Page} {pte : Pte Proc} {entry : CacheEntry}

/-! ## What an allocation leaves alone -/

/-- Only pages that were free have changed. -/
structure Allocs (s s' : Machine Proc) : Prop where
  ptes : s'.ptes = s.ptes
  cache : s'.cache = s.cache
  anon : s'.anon = s.anon
  vmas : s'.vmas = s.vmas
  files : s'.files = s.files
  pins : s'.pins = s.pins
  canRead : s'.canRead = s.canRead
  refs : ∀ page, s.refs page ≠ 0 → s'.refs page = s.refs page
  data : ∀ page, s.refs page ≠ 0 → s'.data page = s.data page

theorem Allocs.refl (s : Machine Proc) : Allocs s s :=
  ⟨rfl, rfl, rfl, rfl, rfl, rfl, rfl, fun _ _ => rfl, fun _ _ => rfl⟩

theorem Allocs.trans (h : Allocs s s') (h' : Allocs s' s'') : Allocs s s'' where
  ptes := h'.ptes.trans h.ptes
  cache := h'.cache.trans h.cache
  anon := h'.anon.trans h.anon
  vmas := h'.vmas.trans h.vmas
  files := h'.files.trans h.files
  pins := h'.pins.trans h.pins
  canRead := h'.canRead.trans h.canRead
  refs := fun page hp => by
    have h1 := h.refs page hp
    rw [h'.refs page (by rw [h1]; exact hp), h1]
  data := fun page hp => by
    rw [h'.data page (by rw [h.refs page hp]; exact hp), h.data page hp]

/-- Some entries may be gone too, with their pages. -/
structure Reclaims (s s' : Machine Proc) : Prop where
  ptes : s'.ptes = s.ptes
  cache : ∀ entry ∈ s'.cache, entry ∈ s.cache
  anon : s'.anon = s.anon
  vmas : s'.vmas = s.vmas
  files : s'.files = s.files
  pins : s'.pins = s.pins
  canRead : s'.canRead = s.canRead
  refs : ∀ page, s.refs page ≠ 0 → (∀ entry ∈ s.cache, entry.page ≠ page) → s'.refs page = s.refs page

theorem Allocs.reclaims (h : Allocs s s') : Reclaims s s' where
  ptes := h.ptes
  cache := fun _ he => h.cache ▸ he
  anon := h.anon
  vmas := h.vmas
  files := h.files
  pins := h.pins
  canRead := h.canRead
  refs := fun page hp _ => h.refs page hp

theorem Reclaims.refl (s : Machine Proc) : Reclaims s s := (Allocs.refl s).reclaims

theorem Reclaims.trans (h : Reclaims s s') (h' : Reclaims s' s'') : Reclaims s s'' where
  ptes := h'.ptes.trans h.ptes
  cache := fun entry he => h.cache entry (h'.cache entry he)
  anon := h'.anon.trans h.anon
  vmas := h'.vmas.trans h.vmas
  files := h'.files.trans h.files
  pins := h'.pins.trans h.pins
  canRead := h'.canRead.trans h.canRead
  refs := fun page hp hc => by
    have h1 := h.refs page hp hc
    rw [h'.refs page (by rw [h1]; exact hp) (fun entry he => hc entry (h.cache entry he)), h1]

/-- A leaf that could be written before an allocation can be written after it. -/
theorem Mappable.allocs (h : Mappable g s.refs s.pins s.cache pte) (ha : Allocs s s')
    (hp : s.refs pte.page ≠ 0) : Mappable g s'.refs s'.pins s'.cache pte := by
  rw [ha.pins, ha.cache]
  exact { h with exclusive := fun hw hk => (ha.refs _ hp).trans (h.exclusive hw hk) }

/-! ## Outcomes -/

theorem outcome_allocs (s : Machine Proc) : Allocs s (outcome s).1 := by
  unfold outcome
  split
  · exact .refl s
  · exact ⟨rfl, rfl, rfl, rfl, rfl, rfl, rfl, fun _ _ => rfl, fun _ _ => rfl⟩

theorem Inv.outcome (h : Inv g s hand) : Inv g (Mm.outcome s).1 hand := by
  unfold Mm.outcome
  split
  · exact h
  · exact { h with }

/-! ## Physical pages -/

theorem allocPages_allocs (s : Machine Proc) (zero : Bool) : Allocs s (allocPages s zero).1 := by
  unfold allocPages
  split
  · exact .refl s
  · exact ⟨rfl, rfl, rfl, rfl, rfl, rfl, rfl, fun _ _ => rfl, fun _ _ => rfl⟩
  rename_i page rest _
  split
  · exact ⟨rfl, rfl, rfl, rfl, rfl, rfl, rfl, fun _ _ => rfl, fun _ _ => rfl⟩
  split
  · exact ⟨rfl, rfl, rfl, rfl, rfl, rfl, rfl, fun _ _ => rfl, fun _ _ => rfl⟩
  rename_i hzero
  have hne : ∀ other, s.refs other ≠ 0 → other ≠ page := fun other ho he =>
    ho (by rw [he]; exact not_not.mp hzero)
  refine ⟨rfl, rfl, rfl, rfl, rfl, rfl, rfl, fun other ho => update_of_ne (hne other ho) _ _,
    fun other ho => ?_⟩
  split
  · exact update_of_ne (hne other ho) _ _
  · rfl

/-- Leaves do not change when the count of a page without a writable private leaf does. -/
theorem Inv.mapped_update (h : Inv g s hand) {n : Nat}
    (hp : ∀ pte ∈ s.ptes, pte.perm.w = true → g.kind pte.proc pte.va = some .priv → pte.page ≠ page) :
    ∀ pte ∈ s.ptes, Mappable g (update s.refs page n) s.pins s.cache pte := by
  intro pte hm
  refine { h.mapped pte hm with exclusive := fun hw hk => ?_ }
  rw [update_of_ne (hp pte hm hw hk)]
  exact (h.mapped pte hm).exclusive hw hk

/-- **Taking a new page**: there is none, or it was free and is in hand now. -/
theorem Inv.allocPages (h : Inv g s hand) (zero : Bool) :
    ((allocPages s zero).2 = none ∧ Inv g (allocPages s zero).1 hand) ∨
    ∃ page, (allocPages s zero).2 = some page ∧ s.refs page = 0 ∧ (allocPages s zero).1.refs page = 1 ∧
      Inv g (allocPages s zero).1 (page ::ₘ hand) := by
  unfold Mm.allocPages
  split
  · exact .inl ⟨rfl, h⟩
  · exact .inl ⟨rfl, { h with }⟩
  rename_i page rest _
  by_cases ha : s.allocated page = true
  · rw [if_pos ha]
    exact .inl ⟨rfl, { h with }⟩
  have hzero : s.refs page = 0 := by
    by_contra hne
    exact ha ((h.live page).mpr hne)
  rw [if_neg ha, if_neg (not_not.mpr hzero)]
  obtain ⟨_, hptes, hcache⟩ := h.not_held hzero
  refine .inr ⟨page, rfl, hzero, update_self .., ?_⟩
  -- the contents change only where no entry of the cache looks
  have hdata : ∀ entry ∈ s.cache, ∀ i,
      (if zero = true then update s.data page fun _ => 0 else s.data) entry.page i =
        s.data entry.page i := by
    intro entry he i
    split
    · rw [update_of_ne (hcache entry he)]
    · rfl
  refine { h with
    counted := ?_
    live := fun other => ?_
    bound := fun other => ?_
    mapped := h.mapped_update fun pte hp _ _ => hptes pte hp
    clean := fun hc entry he hd hw i hi hx => ?_
    cached := fun hc entry he i hi hx => ?_ }
  · rw [cons_add]
    exact h.counted.first hzero
  · show update s.allocated page true other = true ↔ update s.refs page 1 other ≠ 0
    by_cases ho : other = page
    · rw [ho, update_self, update_self]
      decide
    · rw [update_of_ne ho, update_of_ne ho]
      exact h.live other
  · show update s.refs page 1 other ≤ uint32Max
    by_cases ho : other = page
    · rw [ho, update_self]
      decide
    · rw [update_of_ne ho]
      exact h.bound other
  · exact (hdata entry he i).trans (h.clean hc entry he hd hw i hi hx)
  · exact (hdata entry he i).trans (h.cached hc entry he i hi hx)

@[simp] theorem pfree_ptes : (pfree s page).ptes = s.ptes := by unfold pfree; split <;> rfl

@[simp] theorem pfree_cache : (pfree s page).cache = s.cache := by unfold pfree; split <;> rfl

@[simp] theorem pfree_anon : (pfree s page).anon = s.anon := by unfold pfree; split <;> rfl

@[simp] theorem pfree_tables : (pfree s page).tables = s.tables := by unfold pfree; split <;> rfl

@[simp] theorem pfree_vmas : (pfree s page).vmas = s.vmas := by unfold pfree; split <;> rfl

@[simp] theorem pfree_files : (pfree s page).files = s.files := by unfold pfree; split <;> rfl

@[simp] theorem pfree_data : (pfree s page).data = s.data := by unfold pfree; split <;> rfl

@[simp] theorem pfree_pins : (pfree s page).pins = s.pins := by unfold pfree; split <;> rfl

@[simp] theorem pfree_canRead : (pfree s page).canRead = s.canRead := by unfold pfree; split <;> rfl

variable {other : Page}

theorem pallocRefcount_pfree_of_ne (h : other ≠ page) :
    pallocRefcount (pfree s page) other = pallocRefcount s other := by
  unfold pallocRefcount pfree
  split
  · rfl
  · simp only [update_of_ne h]
    split
    · rw [update_of_ne h]
    · rfl

theorem pfree_refs_of_ne (h : other ≠ page) : (pfree s page).refs other = s.refs other := by
  unfold pfree
  split
  · rfl
  · exact update_of_ne h _ _

section
variable (h : Inv g s hand)
include h

/-- The counters after one reference more. -/
theorem Inv.refs_succ (hpos : s.refs page ≠ 0) (hmax : s.refs page ≠ uint32Max) :
    (∀ other, s.allocated other = true ↔ update s.refs page (s.refs page + 1) other ≠ 0) ∧
    ∀ other, update s.refs page (s.refs page + 1) other ≤ uint32Max := by
  constructor <;> intro other <;> by_cases ho : other = page
  · rw [ho, update_self]
    exact iff_of_true ((h.live page).mpr hpos) (Nat.succ_ne_zero _)
  · rw [update_of_ne ho]
    exact h.live other
  · rw [ho, update_self]
    have := h.bound page
    omega
  · rw [update_of_ne ho]
    exact h.bound other

/-- The counters after one reference less: the page is free if it was the last. -/
theorem Inv.refs_pred (hpos : s.refs page ≠ 0) :
    (∀ other, (if s.refs page - 1 = 0 then update s.allocated page false else s.allocated) other = true ↔
      update s.refs page (s.refs page - 1) other ≠ 0) ∧
    ∀ other, update s.refs page (s.refs page - 1) other ≤ uint32Max := by
  constructor <;> intro other <;> by_cases ho : other = page
  · rw [ho, update_self]
    split
    · rename_i hlast
      rw [update_self, hlast]
      simp
    · rename_i hmore
      exact iff_of_true ((h.live page).mpr hpos) hmore
  · rw [update_of_ne ho]
    split
    · rw [update_of_ne ho]
      exact h.live other
    · exact h.live other
  · rw [ho, update_self]
    exact (Nat.sub_le _ _).trans (h.bound page)
  · rw [update_of_ne ho]
    exact h.bound other

/-- `pfree` of a page with references. -/
theorem Inv.pfree_eq (hpos : s.refs page ≠ 0) : Mm.pfree s page =
    { s with
      refs := update s.refs page (s.refs page - 1)
      allocated := if s.refs page - 1 = 0 then update s.allocated page false else s.allocated } := by
  unfold Mm.pfree
  rw [if_neg (by simp [hpos, (h.live page).mpr hpos])]

omit h in
/-- **Putting a page that is in hand.** -/
theorem Inv.pfree [DecidableEq Proc] (h : Inv g s (page ::ₘ hand)) : Inv g (pfree s page) hand := by
  have hcounted : Counted s.refs (page ::ₘ (hand + s.held)) := by
    rw [← cons_add]
    exact h.counted
  have hpos : s.refs page ≠ 0 := Nat.pos_iff_ne_zero.mp (hcounted.pos (mem_cons_self ..))
  rw [h.pfree_eq hpos]
  refine { h with
    counted := hcounted.drop
    live := (h.refs_pred hpos).1
    bound := (h.refs_pred hpos).2
    mapped := h.mapped_update fun pte hp hw hk he => ?_ }
  -- a page in hand has no writable private leaf
  exact (h.exclusive_only hp hw hk).1 (he ▸ mem_cons_self ..)

omit h in
/-- `palloc_get` succeeds unless the counter is at one of its ends. -/
theorem pallocGet_cases (s : Machine Proc) (page : Page) :
    pallocGet s page = (s, false) ∨
    (s.refs page ≠ 0 ∧ s.refs page ≠ uint32Max ∧
      pallocGet s page = ({ s with refs := update s.refs page (s.refs page + 1) }, true)) := by
  unfold pallocGet
  split_ifs with hc
  · simp only [Bool.and_eq_true, decide_eq_true_eq] at hc
    exact .inr ⟨hc.1.1, hc.1.2, rfl⟩
  · exact .inl rfl

/-- **Taking another reference**, to a page without a writable private leaf. -/
theorem Inv.pallocGet
    (hp : ∀ pte ∈ s.ptes, pte.perm.w = true → g.kind pte.proc pte.va = some .priv → pte.page ≠ page) :
    (pallocGet s page = (s, false)) ∨
    ∃ s', pallocGet s page = (s', true) ∧ s.refs page ≠ 0 ∧
      s' = { s with refs := update s.refs page (s.refs page + 1) } ∧ Inv g s' (page ::ₘ hand) := by
  rcases pallocGet_cases s page with hf | ⟨hpos, hmax, hok⟩
  · exact .inl hf
  refine .inr ⟨_, hok, hpos, rfl, { h with
    counted := ?_
    live := (h.refs_succ hpos hmax).1
    bound := (h.refs_succ hpos hmax).2
    mapped := h.mapped_update hp }⟩
  rw [cons_add]
  exact h.counted.take page

/-- A page that is only in hand can always be had once more. -/
theorem Inv.pallocGet_of_one (hone : s.refs page = 1) : (Mm.pallocGet s page).2 = true := by
  have halive := (h.live page).mpr (by rw [hone]; decide)
  unfold Mm.pallocGet
  rw [if_pos (by rw [hone, halive]; decide)]

omit h in
/-- A page put right after it was taken. -/
theorem Allocs.pfree (h : Allocs s s') (hfree : s.refs page = 0) : Allocs s (pfree s' page) where
  ptes := pfree_ptes.trans h.ptes
  cache := pfree_cache.trans h.cache
  anon := pfree_anon.trans h.anon
  vmas := pfree_vmas.trans h.vmas
  files := pfree_files.trans h.files
  pins := pfree_pins.trans h.pins
  canRead := pfree_canRead.trans h.canRead
  refs := fun other ho => by
    rw [pfree_refs_of_ne fun (he : other = page) => ho (he ▸ hfree)]
    exact h.refs other ho
  data := fun other ho => by
    rw [pfree_data]
    exact h.data other ho

omit h in
/-- Pages in hand are put, one after the other. -/
theorem Inv.pfreeAll [DecidableEq Proc] (pages : List Page) : ∀ s : Machine Proc, Inv g s (↑pages + hand) →
    Inv g (pages.foldl Mm.pfree s) hand := by
  induction pages with
  | nil => intro s h; simpa using h
  | cons page pages ih =>
    intro s h
    refine ih _ (.pfree ?_)
    rw [← cons_add]
    exact h

/-- Contents of a page that is not in the cache. -/
theorem Inv.setData (bytes : Nat → UInt8) (hp : ∀ entry ∈ s.cache, entry.page ≠ page) :
    Inv g (s.setData page bytes) hand := by
  have hdata : ∀ entry ∈ s.cache, (s.setData page bytes).data entry.page = s.data entry.page :=
    fun entry he => update_of_ne (hp entry he) _ _
  refine { h with
    clean := fun hc entry he hd hw i hi hx => ?_
    cached := fun hc entry he i hi hx => ?_ }
  · rw [hdata entry he]
    exact h.clean hc entry he hd hw i hi hx
  · rw [hdata entry he]
    exact h.cached hc entry he i hi hx

/-! ## Leaves -/

/-- **A leaf is cleared**: its reference is in hand. -/
theorem Inv.clearPte [DecidableEq Proc] (hp : pte ∈ s.ptes) : Inv g (s.clearPte pte) (pte.page ::ₘ hand) := by
  have hcounted := h.counted
  rw [held_of_pte hp, add_cons, ← cons_add] at hcounted
  exact { h with
    counted := hcounted
    pteKeys := h.pteKeys.erase pte
    mapped := fun other ho => h.mapped other (mem_of_mem_erase ho) }

omit h in
/-- **A leaf is written** where there was none, with a reference from the hand. -/
theorem Inv.addPte (h : Inv g s (pte.page ::ₘ hand)) (hkey : ∀ other ∈ s.ptes, other.key ≠ pte.key)
    (hm : Mappable g s.refs s.pins s.cache pte) : Inv g { s with ptes := pte :: s.ptes } hand := by
  have hheld : ({ s with ptes := pte :: s.ptes } : Machine Proc).held = pte.page ::ₘ s.held := by
    unfold Machine.held
    simp only [refsOf_cons, cons_add]
  refine { h with
    counted := ?_
    pteKeys := keyed_cons.mpr ⟨hkey, h.pteKeys⟩
    mapped := fun other ho => ?_ }
  · rw [hheld, add_cons, ← cons_add]
    exact h.counted
  · rcases mem_cons.mp ho with rfl | ho
    · exact hm
    · exact h.mapped other ho

/-- **A leaf is changed**; the page it maps may change hands with the code. -/
theorem Inv.setPte [DecidableEq Proc] {new : Pte Proc} {hand' : Multiset Page} (hp : pte ∈ s.ptes)
    (hkey : new.key = pte.key)
    (hhand : pte.page ::ₘ hand = new.page ::ₘ hand') (hm : Mappable g s.refs s.pins s.cache new) :
    Inv g (s.setPte pte new) hand' := by
  have hclear := h.clearPte hp
  rw [hhand] at hclear
  refine hclear.addPte (fun other ho => ?_) hm
  obtain ⟨hne, hmem⟩ := h.pteKeys.mem_erase.mp ho
  intro hk
  exact hne (h.pteKeys.inj hmem hp (hk.trans hkey))

/-- **A leaf goes and its page is put.** -/
theorem Inv.unmapPte [DecidableEq Proc] (hp : pte ∈ s.ptes) : Inv g (unmapPte s pte) hand :=
  (h.clearPte hp).pfree

omit h in
/-- The rest of the machine while leaves go. -/
theorem foldl_unmapPte [DecidableEq Proc] (l : List (Pte Proc)) : ∀ s : Machine Proc,
    (l.foldl unmapPte s).ptes = s.ptes.diff l ∧ (l.foldl unmapPte s).vmas = s.vmas ∧
    (l.foldl unmapPte s).cache = s.cache ∧ (l.foldl unmapPte s).files = s.files ∧
    (l.foldl unmapPte s).data = s.data := by
  induction l with
  | nil => intro s; exact ⟨rfl, rfl, rfl, rfl, rfl⟩
  | cons pte l ih =>
    intro s
    obtain ⟨h1, h2, h3, h4, h5⟩ := ih (unmapPte s pte)
    refine ⟨?_, ?_, ?_, ?_, ?_⟩
    · rw [foldl_cons, h1, diff_cons]
      unfold unmapPte
      rw [pfree_ptes]
      rfl
    · rw [foldl_cons, h2]; unfold unmapPte; rw [pfree_vmas]; rfl
    · rw [foldl_cons, h3]; unfold unmapPte; rw [pfree_cache]; rfl
    · rw [foldl_cons, h4]; unfold unmapPte; rw [pfree_files]; rfl
    · rw [foldl_cons, h5]; unfold unmapPte; rw [pfree_data]; rfl

omit h in
/-- **Leaves go, one after the other.** -/
theorem Inv.unmapAll [DecidableEq Proc] (l : List (Pte Proc)) : ∀ s : Machine Proc, Inv g s hand → l.Nodup →
    (∀ pte ∈ l, pte ∈ s.ptes) → Inv g (l.foldl Mm.unmapPte s) hand := by
  induction l with
  | nil => intro s h _ _; exact h
  | cons pte l ih =>
    intro s h hnodup hsub
    obtain ⟨hnot, hnodup⟩ := nodup_cons.mp hnodup
    refine ih _ (h.unmapPte (hsub pte mem_cons_self)) hnodup fun other ho => ?_
    have hmem := hsub other (mem_cons_of_mem _ ho)
    unfold Mm.unmapPte
    rw [pfree_ptes]
    exact (mem_erase_of_ne fun (he : other = pte) => hnot (he ▸ ho)).mpr hmem

/-- The leaves that satisfy a test go: the others stay. -/
theorem Inv.unmapWhere [DecidableEq Proc] (p : Pte Proc → Bool) :
    Inv g ((s.ptes.filter p).foldl Mm.unmapPte s) hand ∧
    ∀ pte, pte ∈ ((s.ptes.filter p).foldl Mm.unmapPte s).ptes ↔ pte ∈ s.ptes ∧ p pte = false := by
  refine ⟨.unmapAll _ s h (h.pteKeys.nodup.filter _) fun pte hp => (mem_filter.mp hp).1,
    fun pte => ?_⟩
  rw [(foldl_unmapPte _ s).1, h.pteKeys.nodup.mem_sdiff_iff, mem_filter]
  constructor
  · rintro ⟨hm, hn⟩
    exact ⟨hm, by simpa [hm] using hn⟩
  · rintro ⟨hm, hf⟩
    exact ⟨hm, fun hc => by simp [hf] at hc⟩

/-- Only the kinds of pages that are mapped matter. -/
theorem Inv.congr_kind {kind : Proc → Nat → Option PageKind}
    (hk : ∀ pte ∈ s.ptes, kind pte.proc pte.va = g.kind pte.proc pte.va) :
    Inv ⟨kind, g.bytes, g.coherent⟩ s hand := by
  refine { h with mapped := fun pte hp => ?_ }
  have hm := h.mapped pte hp
  have he := hk pte hp
  refine ⟨hm.aligned, ?_, fun hw hpriv => ?_, fun inode offset hs => ?_, fun hs => ?_, fun hc => ?_,
    hm.tracked⟩
  · show kind pte.proc pte.va ≠ none
    rw [he]
    exact hm.covered
  · exact hm.exclusive hw (he ▸ hpriv)
  · exact hm.sharedFile inode offset (he ▸ hs)
  · exact hm.sharedAnon (he ▸ hs)
  · exact he.trans (hm.cow hc)

end

end Caffeinix.Mm
