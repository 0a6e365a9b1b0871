import Caffeinix.Vma.Operations

/-!
# `Vma.Elf` — `vma_insert_elf_file`

The insert of an ELF segment has two halves. If the first page of the segment is already mapped, that page is
cut off its area and takes the segment's protection as well (`vmaElfOverlap`); what is left of the segment is
then inserted (`vmaElfRest`). The first half is not undone when the second fails: `vmaInsertElfFile_cases`
lists every way the call can end, with the state each leaves.
-/

namespace Caffeinix.Vma

open Nat List Intervals Option

variable {base refs : Refs} {s : VmaState} {a o new : VmArea} {areas l r : List VmArea} {e : ElfArgs}
  {x start finish : Nat} {v : PageAttr}

theorem vmaElfRefused_eq_false (h : vmaElfRefused e = false) :
    e.file.isSome ∧ e.start < e.finish ∧ pgsize ∣ e.start ∧ pgsize ∣ e.finish ∧ e.finish ≤ maxva ∧
    pgsize ∣ e.offset ∧ e.offset + (e.finish - e.start) ≤ uint64Max ∧ e.fileLength ≤ e.finish - e.start := by
  simp only [vmaElfRefused, Bool.or_eq_false_iff, decide_eq_false_iff_not, ne_eq, not_not, Nat.not_le,
    not_lt, Option.isNone_eq_false_iff] at h
  obtain ⟨⟨⟨⟨⟨⟨⟨h1, h2⟩, h3⟩, h4⟩, h5⟩, h6⟩, h7⟩, h8⟩ := h
  refine ⟨h1, h2, dvd_of_mod_eq_zero h3, dvd_of_mod_eq_zero h4, h5, dvd_of_mod_eq_zero h6, ?_, h8⟩
  omega

theorem vmaElfOverlapRefused_eq_false (h : vmaElfOverlapRefused o e = false) :
    e.start + pgsize ≤ e.finish ∧ o.finish = e.start + pgsize ∧ o.usage = .elf := by
  simp only [vmaElfOverlapRefused, Bool.or_eq_false_iff, decide_eq_false_iff_not, ne_eq, not_not,
    not_lt, bne_eq_false_iff_eq] at h
  exact ⟨h.1.1.1.1, h.1.1.1.2, h.1.1.2⟩

/-! ## The shared page -/

/-- The page that will be shared: the last page of the overlapped area. -/
theorem tail_start : a.tail a.start = a := by
  have hsub : ∀ n : Nat, (if n > 0 then n - 0 else 0) = n := fun n => by split <;> omega
  unfold VmArea.tail
  simp only [Nat.sub_self, Nat.add_zero, hsub, ite_self]

/-- The shared page keeps its place, stays consistent, and its references and those given back are the ones
    it had. -/
theorem vmaElfShare_spec (h : AreaWf a) (hone : a.finish = a.start + pgsize) (husage : a.usage = .elf) :
    AreaWf (vmaElfShare a e).1 ∧ (vmaElfShare a e).1.start = a.start ∧
    (vmaElfShare a e).1.finish = a.finish ∧
    ∀ k, ((vmaElfShare a e).1.refs).count k + ((vmaElfShare a e).2).count k = a.refs.count k := by
  unfold vmaElfShare
  simp only
  split
  · rename_i hdrop
    -- a file-backed area has no backing, so dropping the file leaves no reference at all
    have hback : a.backing = none := by
      cases hb : a.backing with
      | none => rfl
      | some =>
        have := h.backing_anonymous (by rw [hb]; rfl)
        exact absurd (hdrop.1.symm.trans this) (by simp)
    refine ⟨⟨h.start_page, h.finish_page, Nat.dvd_zero _, by simp, by simp [hback], Nat.zero_le _,
      fun _ => rfl, by simp [hback]⟩, rfl, rfl, fun k => ?_⟩
    cases hf : a.file with
    | none => simp [VmArea.refs, areaRefs, hback, hf]
    | some => simp [VmArea.refs, areaRefs, hback, hf, husage]
  · split
    · rename_i hraise
      refine ⟨⟨h.start_page, h.finish_page, h.offset_page, h.file_iff, h.backing_anonymous, ?_, ?_,
        h.no_wrap⟩, rfl, rfl, fun k => rfl⟩
      · show (if e.fileLength < pgsize then e.fileLength else pgsize) ≤ a.finish - a.start
        split <;> omega
      · intro ho
        exact absurd (ho.symm.trans hraise.1) (by simp)
    · exact ⟨⟨h.start_page, h.finish_page, h.offset_page, h.file_iff, h.backing_anonymous, h.length,
        h.length_zero, h.no_wrap⟩, rfl, rfl, fun k => rfl⟩

/-- What sharing does to the page's attributes: its protection widens; a page of another file or offset
    becomes anonymous, one of the same file may gain file bytes. -/
def PageAttr.share (w : PageAttr) (e : ElfArgs) : PageAttr :=
  let w := { w with protection := w.protection ||| e.protection }
  if w.origin = .fileBacked ∧ (w.file ≠ e.file ∨ w.offset ≠ some e.offset) then
    { w with file := none, origin := .anonymous, offset := none, bytes := 0 }
  else if w.origin = .fileBacked ∧ w.bytes < e.fileLength then { w with bytes := min e.fileLength pgsize }
  else w

/-- The attributes of an area of one page at its start. -/
theorem page_start (hlen : a.fileLength ≤ pgsize) : a.page a.start =
    ⟨a.protection, a.flags, a.origin, a.usage, a.file, a.backing,
      if a.HasOffset then some a.offset else none, a.fileLength⟩ := by
  simp only [VmArea.page, Nat.sub_self, Nat.add_zero, Nat.sub_zero, Nat.min_eq_right hlen]

theorem vmaElfShare_page (h : AreaWf a) (hone : a.finish = a.start + pgsize) :
    (vmaElfShare a e).1.page a.start = (a.page a.start).share e := by
  have hlen : a.fileLength ≤ pgsize := by
    have := h.length
    omega
  have hmin : (if e.fileLength < pgsize then e.fileLength else pgsize) = min e.fileLength pgsize := by
    split <;> omega
  have hback : a.origin = .fileBacked → a.backing.isSome = false := fun ho => by
    rw [Bool.eq_false_iff]
    exact fun hb => absurd (ho.symm.trans (h.backing_anonymous hb)) (by simp)
  -- every branch leaves an area that starts at `start` and has at most a page of file bytes
  have hat : ∀ c : VmArea, c.start = a.start → c.fileLength ≤ pgsize → c.page a.start =
      ⟨c.protection, c.flags, c.origin, c.usage, c.file, c.backing,
        if c.HasOffset then some c.offset else none, c.fileLength⟩ := fun c hc hcl => by
    rw [← hc]
    exact page_start hcl
  rw [page_start hlen]
  unfold PageAttr.share vmaElfShare VmArea.HasOffset
  obtain ⟨start, finish, offset, fileLength, protection, flags, origin, usage, file, backing⟩ := a
  cases origin with
  | anonymous =>
    simp only [reduceCtorEq, false_and, if_false, false_or]
    refine (hat _ ?_ ?_).trans ?_
    · rfl
    · exact hlen
    · simp only [VmArea.HasOffset, reduceCtorEq, false_or]
  | fileBacked =>
    simp only [true_and, true_or, if_true, ne_eq, some.injEq, hmin]
    by_cases hdrop : ¬ file = e.file ∨ ¬ offset = e.offset
    · simp only [if_pos hdrop]
      refine (hat _ ?_ ?_).trans ?_
      · rfl
      · exact (Nat.zero_le _)
      · simp only [VmArea.HasOffset, reduceCtorEq, false_or, hback, Bool.false_eq_true, if_false]
    simp only [if_neg hdrop]
    by_cases hraise : fileLength < e.fileLength
    · simp only [if_pos hraise]
      refine (hat _ ?_ ?_).trans ?_
      · rfl
      · exact (min_le_right _ _)
      · simp only [VmArea.HasOffset, true_or, if_true]
    simp only [if_neg hraise]
    refine (hat _ ?_ ?_).trans ?_
    · rfl
    · exact hlen
    · simp only [VmArea.HasOffset, true_or, if_true]

variable {outcome : Allocation} {s' : VmaState}

section
variable (h : Inv base s) (hs : pgsize ∣ e.start) (hfind : vmaFind e.start s.areas = some o)
  (hfin : o.finish = e.start + pgsize) (husage : o.usage = .elf) (hov : vmaElfOverlap outcome s o e = some s')
include h hs hfind hfin husage hov

/-- What the overlap half leaves: the list around the shared page, which is cut off if need be. -/
theorem vmaElfOverlap_list : Inv base s' ∧ AreaWf (o.tail e.start) ∧
    ∃ l r, SameMap s.areas (l ++ [o.tail e.start] ++ r) ∧ Areas 0 (l ++ [o.tail e.start] ++ r) maxva ∧
      s'.areas = l ++ [(vmaElfShare (o.tail e.start) e).1] ++ r ∧
      ∀ k, (heldRefs (l ++ r)).count k + (if o.start < e.start then 0 else o.refs.count k) =
        (heldRefs s.areas).count k := by
  obtain ⟨hox, l, r, he, hrep⟩ := vmaFind_place hfind
  have hlt : e.start < o.finish := hox.2
  obtain ⟨refs, areas⟩ := s
  simp only at he
  -- the page rewritten in place
  have hpage : ∀ (refs : Refs) (l r : List VmArea), Inv base ⟨refs, l ++ [o.tail e.start] ++ r⟩ →
      Inv base ⟨refs.put (vmaElfShare (o.tail e.start) e).2,
        l ++ [(vmaElfShare (o.tail e.start) e).1] ++ r⟩ := by
    intro refs l r hinv
    obtain ⟨hw, hst, hfi, hrefs⟩ := vmaElfShare_spec (hinv.wf (o.tail e.start) (by simp)) hfin husage
    refine hinv.middle ?_ ?_ ?_
    · rintro b c ⟨h1, h2, h3⟩
      refine ⟨?_, ?_, ?_⟩
      · rw [hst]; exact h1
      · rw [hst, hfi]; exact h2
      · rw [hfi]; exact h3
    · intro c hc
      rw [mem_singleton.mp hc]
      exact hw
    · intro k hk
      have := hrefs k
      simp only [heldRefs_cons, heldRefs_nil, append_nil, put_apply] at hk ⊢
      omega
  unfold vmaElfOverlap at hov
  by_cases hcut : o.start < e.start
  · rw [if_pos hcut, Option.map_eq_some_iff] at hov
    obtain ⟨p, hp, rfl⟩ := hov
    obtain ⟨refs', halloc, rfl⟩ := Option.map_eq_some_iff.mp hp
    obtain rfl := vmaAllocate_some halloc
    have hsil := silent_split refs l r hs hcut hlt
    rw [← he] at hsil
    obtain ⟨hinv, hmap⟩ := hsil base h
    have hassoc : ∀ c : VmArea, l ++ [o.trim e.start, c] ++ r = (l ++ [o.trim e.start]) ++ [c] ++ r :=
      fun c => by simp only [append_assoc, cons_append, nil_append]
    simp only [hassoc] at hinv hmap
    simp only [hrep, hassoc]
    refine ⟨hpage _ _ _ hinv, hinv.wf _ (by simp), l ++ [o.trim e.start], r, hmap, hinv.areas, rfl, fun k => ?_⟩
    rw [if_pos hcut, he]
    simp only [heldRefs_append, heldRefs_cons, heldRefs_nil, trim_refs, count_append, append_nil]
    omega
  · rw [if_neg hcut] at hov
    have hsame : o.tail e.start = o := by
      rw [← Nat.le_antisymm hox.1 (Nat.le_of_not_lt hcut)]
      exact tail_start
    obtain rfl := some.inj hov
    have hinv : Inv base ⟨refs, l ++ [o.tail e.start] ++ r⟩ := by
      rw [hsame, ← he]
      exact h
    refine ⟨?_, hinv.wf _ (by simp), l, r, ?_, hinv.areas, ?_, fun k => ?_⟩
    · have hpage := hpage refs l r hinv
      simp only [hsame, hrep] at hpage ⊢
      exact hpage
    · rw [hsame, ← he]
      exact .refl _
    · simp only [hrep, hsame]
    · rw [if_neg hcut, he]
      simp only [heldRefs_append, heldRefs_cons, heldRefs_nil, count_append, append_nil]
      omega

/-- The overlap half changes the shared page only. -/
theorem vmaElfOverlap_spec : Inv base s' ∧ (∀ x, pgsize ∣ x → ∀ v, Maps s'.areas x v ↔
      if x = e.start then (o.page e.start).share e = v else Maps s.areas x v) ∧
    ∀ k, (heldRefs s'.areas).count k + (if o.start < e.start then 0 else o.refs.count k) =
      (heldRefs s.areas).count k + (vmaElfShare (o.tail e.start) e).1.refs.count k := by
  obtain ⟨hinv, htwf, l, r, hmap, hareas, he, hheld⟩ := vmaElfOverlap_list h hs hfind hfin husage hov
  obtain ⟨_, hst, hfi, _⟩ := vmaElfShare_spec htwf hfin husage
  have hstart : (o.tail e.start).start = e.start := rfl
  have hfinish : (o.tail e.start).finish = e.start + pgsize := hfin
  have hox := ((vmaFind_eq_some h.areas).mp hfind).2
  have htail : (o.tail e.start).page e.start = o.page e.start := by
    rcases lt_or_ge o.start e.start with hlt | hge
    · exact tail_page (h.wf o ((vmaFind_eq_some h.areas).mp hfind).1) hlt (Nat.le_refl _)
    · rw [← Nat.le_antisymm hox.1 hge, tail_start]
  have hpage : (vmaElfShare (o.tail e.start) e).1.page e.start = (o.page e.start).share e := by
    rw [← htail]
    exact vmaElfShare_page htwf hfin
  -- the page is the only area at its address
  have hat : ∀ x, pgsize ∣ x → ((o.tail e.start).Has x ↔ x = e.start) := by
    intro x hx
    constructor
    · rintro ⟨h1, h2⟩
      rw [hstart] at h1
      rw [hfinish] at h2
      by_contra hne
      exact absurd (page_step hs hx (Nat.lt_of_le_of_ne h1 (Ne.symm hne))) (Nat.not_le.mpr h2)
    · rintro rfl
      exact ⟨Nat.le_refl _, by rw [hfinish]; exact Nat.lt_add_of_pos_right pgsize_pos⟩
  have hother : ∀ v, ¬ (Maps l e.start v ∨ Maps r e.start v) := by
    intro v hlr
    obtain ⟨c, hc, hcx⟩ : ∃ c ∈ l ++ r, c.Has e.start := by
      rcases hlr with ⟨c, hc, hcx, _⟩ | ⟨c, hc, hcx, _⟩
      · exact ⟨c, mem_append_left _ hc, hcx⟩
      · exact ⟨c, mem_append_right _ hc, hcx⟩
    have hself := (hat e.start hs).mpr rfl
    obtain ⟨m, hl, hmr⟩ := chain_append.mp hareas
    obtain ⟨m', hl', hm⟩ := chain_append.mp hl
    rcases mem_append.mp hc with hc | hc
    · exact absurd (((hl'.mem hc).2.2.trans hm.1)) (Nat.not_le.mpr hcx.2)
    · exact absurd (hself.2.trans_le (hm.2.2.trans (hmr.mem hc).1)) (not_lt.mpr hcx.1)
  refine ⟨hinv, ?_, ?_⟩
  · intro x hx v
    have hm := hmap x hx v
    rw [he]
    simp only [maps_append, maps_cons, maps_nil, or_false] at hm ⊢
    have hshare : (vmaElfShare (o.tail e.start) e).1.Has x ↔ x = e.start := by
      rw [← hat x hx]
      unfold VmArea.Has Meets
      rw [hst, hfi]
    rw [hshare]
    by_cases hxe : x = e.start
    · subst hxe
      rw [if_pos rfl, hpage]
      have := hother v
      tauto
    · rw [if_neg hxe, ← hm, hat x hx]
      tauto
  · intro k
    have hk := hheld k
    rw [he]
    simp only [heldRefs_append, heldRefs_cons, heldRefs_nil, count_append, append_nil] at hk ⊢
    omega

end

/-! ## The rest of the segment -/

/-- The area the insert half asks for. -/
def ElfArgs.area (e : ElfArgs) : VmArea :=
  ⟨e.start, e.finish, e.offset, e.fileLength, e.protection, linuxMapPrivate, .fileBacked, .elf, e.file, none⟩

theorem vmaElfRest_spec (h : Inv base s) :
    (vmaElfRest outcome s e = (s, -1) ∧ e.start < e.finish ∧
      vmaInsertFileLength outcome s e.area = (s, -1)) ∨
    (∃ s', vmaElfRest outcome s e = (s', 0) ∧ Inv base s' ∧
      (e.start < e.finish → (vmaInsertFileLength outcome s e.area).2 = 0) ∧
      ∀ x, pgsize ∣ x → ∀ v, Maps s'.areas x v ↔ Maps s.areas x v ∨ (e.area.Has x ∧ e.area.page x = v)) := by
  unfold vmaElfRest
  by_cases hlt : e.start < e.finish
  · simp only [if_pos hlt]
    rcases vmaInsertFileLength_spec outcome h e.area with hfail | ⟨s', hok, hinv, _, _, _, _, hmap⟩
    · left
      refine ⟨?_, hlt, hfail⟩
      unfold ElfArgs.area at hfail
      rw [hfail]
      rfl
    right
    obtain ⟨hinv', hmap'⟩ := silent_mergeAll s' base hinv
    refine ⟨vmaMergeAll s', ?_, hinv', fun _ => by rw [hok],
      fun x hx v => (hmap' x hx v).trans (hmap x hx v)⟩
    unfold ElfArgs.area at hok
    rw [hok]
    rfl
  · simp only [if_neg hlt]
    obtain ⟨hinv', hmap'⟩ := silent_mergeAll s base h
    refine .inr ⟨_, rfl, hinv', fun hlt' => absurd hlt' hlt, fun x hx v => ?_⟩
    have hempty : ¬ e.area.Has x := fun hx => hlt (hx.1.trans_lt hx.2)
    rw [hmap' x hx v]
    simp only [hempty, false_and, or_false]

/-! ## The call -/

/-- What a successful `vma_insert_elf_file` does to the pages: the first page is shared if it was mapped. -/
def ElfInserted (areas : List VmArea) (e : ElfArgs) (areas' : List VmArea) : Prop :=
  ∀ x, pgsize ∣ x → ∀ v, Maps areas' x v ↔
    match vmaFind e.start areas with
    | none => Maps areas x v ∨ (e.area.Has x ∧ e.area.page x = v)
    | some o =>
      (if x = e.start then (o.page e.start).share e = v else Maps areas x v) ∨
        (e.rest.area.Has x ∧ e.rest.area.page x = v)

/-- The overlap half of the call is reached and goes through, leaving `s'`. -/
structure ElfOverlapped (split : Allocation) (s : VmaState) (e : ElfArgs) (o : VmArea) (s' : VmaState) :
    Prop where
  accepted : vmaElfRefused e = false
  found : vmaFind e.start s.areas = some o
  shareable : vmaElfOverlapRefused o e = false
  done : vmaElfOverlap split s o e = some s'

theorem ElfOverlapped.unique {split : Allocation} {s₁ s₂ : VmaState} {o' : VmArea}
    (h : ElfOverlapped split s e o s₁) (h' : ElfOverlapped split s e o' s₂) : o = o' ∧ s₁ = s₂ := by
  have ho : o = o' := some.inj (h.found.symm.trans h'.found)
  subst ho
  exact ⟨rfl, some.inj (h.done.symm.trans h'.done)⟩

/-- **Every way `vma_insert_elf_file` can end.** It fails before the overlap half is done and changes nothing;
    or it succeeds; or it fails after the overlap half, which stays. -/
theorem vmaInsertElfFile_cases (split rest : Allocation) (h : Inv base s) (e : ElfArgs) :
    (vmaInsertElfFile split rest s e = (s, -1) ∧ ∀ o s', ¬ ElfOverlapped split s e o s') ∨
    (∃ s', vmaInsertElfFile split rest s e = (s', 0) ∧ Inv base s' ∧ vmaElfRefused e = false ∧
      ElfInserted s.areas e s'.areas ∧
      ∀ o s₁, ElfOverlapped split s e o s₁ → e.rest.start < e.rest.finish →
        (vmaInsertFileLength rest s₁ e.rest.area).2 = 0) ∨
    (∃ o s', ElfOverlapped split s e o s' ∧ Inv base s' ∧ vmaInsertElfFile split rest s e = (s', -1) ∧
      e.rest.start < e.rest.finish ∧ vmaInsertFileLength rest s' e.rest.area = (s', -1)) := by
  unfold vmaInsertElfFile
  cases hchk : vmaElfRefused e with
  | true =>
    left
    refine ⟨rfl, fun o s' hov => ?_⟩
    exact absurd (hchk.symm.trans hov.accepted) (by simp)
  | false =>
    obtain ⟨_, _, hs, _⟩ := vmaElfRefused_eq_false hchk
    cases hfind : vmaFind e.start s.areas with
    | none =>
      have hno : ∀ o s', ¬ ElfOverlapped split s e o s' := fun o s' hov =>
        absurd (hfind.symm.trans hov.found) (by simp)
      rcases vmaElfRest_spec h with ⟨hr, _, _⟩ | ⟨s', hr, hinv, _, hmap⟩
      · exact .inl ⟨hr, hno⟩
      · refine .inr (.inl ⟨s', hr, hinv, rfl, fun x hx v => ?_,
          fun o s₁ hov => absurd hov (hno o s₁)⟩)
        rw [hfind]
        exact hmap x hx v
    | some o =>
      cases hoc : vmaElfOverlapRefused o e with
      | true =>
        left
        simp only [hoc, if_true, Bool.false_eq_true, if_false]
        refine ⟨trivial, fun o' s' hov => ?_⟩
        obtain rfl := some.inj (hfind.symm.trans hov.found)
        exact absurd (hoc.symm.trans hov.shareable) (by simp)
      | false =>
        simp only [hoc, Bool.false_eq_true, if_false]
        obtain ⟨_, hfin, husage⟩ := vmaElfOverlapRefused_eq_false hoc
        cases hov : vmaElfOverlap split s o e with
        | none =>
          left
          refine ⟨rfl, fun o' s' hov' => ?_⟩
          obtain rfl := some.inj (hfind.symm.trans hov'.found)
          exact absurd (hov.symm.trans hov'.done) (by simp)
        | some s₁ =>
          right
          have hdone : ElfOverlapped split s e o s₁ := ⟨hchk, hfind, hoc, hov⟩
          obtain ⟨hinv₁, hmap₁, _⟩ := vmaElfOverlap_spec h hs hfind hfin husage hov
          rcases vmaElfRest_spec hinv₁ with ⟨hr, hlt, hins⟩ | ⟨s', hr, hinv, hins, hmap⟩
          · exact .inr ⟨o, s₁, hdone, hinv₁, hr, hlt, hins⟩
          · refine .inl ⟨s', hr, hinv, trivial, fun x hx v => ?_, fun o' s₂ hov' => ?_⟩
            · rw [hfind, hmap x hx v, hmap₁ x hx v]
            · obtain ⟨_, rfl⟩ := hdone.unique hov'
              exact hins

theorem vmaInsertElfFile_inv (split rest : Allocation) (h : Inv base s) (e : ElfArgs) :
    Inv base (vmaInsertElfFile split rest s e).1 := by
  rcases vmaInsertElfFile_cases split rest h e with ⟨hr, _⟩ | ⟨s', hr, hinv, _⟩ | ⟨o, s', _, hinv, hr, _⟩
  · rw [hr]
    exact h
  · rw [hr]
    exact hinv
  · rw [hr]
    exact hinv

end Caffeinix.Vma
