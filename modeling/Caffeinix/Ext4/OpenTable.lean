import Caffeinix.Ext4.Adapter

/-!
# `Ext4.OpenTable` — the table of open inodes (`fs/lwext4/caffeinix.c`)

The table is right for a count of open files if every inode that is open has one entry in use, with its count,
and no other entry is in use. `ext4fs_get_open_inode` and the ways of `ext4fs_put_open_inode` keep it right when
the count of an inode goes up and down.
-/

namespace Caffeinix.Ext4

open Bool List OpenInode

variable {table table' rest : List OpenInode} {opened opened' : Ino → Nat} {e e' : OpenInode} {i : Ino}

/-! ## Entries of the table -/

/-- The entry is in use. -/
def OpenInode.used (e : OpenInode) : Bool := e.count != 0 || e.orphaned

theorem isFor_iff : e.isFor i = true ↔ e.used = true ∧ e.inode = i := by
  unfold isFor used
  rw [and_eq_true, beq_iff_eq]

structure TableOk (table : List OpenInode) (opened : Ino → Nat) : Prop where
  single : Keyed inode (table.filter used)
  count : ∀ e ∈ table, e.used = true → e.count = opened e.inode ∧ 0 < e.count
  entry : ∀ i, 0 < opened i → ∃ e ∈ table, e.used = true ∧ e.inode = i

theorem TableOk.perm (h : TableOk table opened) (hp : table'.Perm table) : TableOk table' opened :=
  ⟨h.single.perm (hp.filter _), fun e he => h.count e (hp.mem_iff.mp he),
    fun i hi => by
      obtain ⟨e, he, hfor⟩ := h.entry i hi
      exact ⟨e, hp.mem_iff.mpr he, hfor⟩⟩

/-- The first entry that is so, and the others. -/
theorem changeFirst_perm {p : OpenInode → Bool} (h : table.find? p = some e) :
    ∃ rest, table.Perm (e :: rest) ∧ ∀ f, (changeFirst p f table).Perm (f e :: rest) := by
  induction table with
  | nil => cases h
  | cons a table ih =>
    by_cases ha : p a = true
    · rw [find?_cons_of_pos ha] at h
      injection h with h
      subst h
      refine ⟨table, .refl _, fun f => ?_⟩
      unfold changeFirst
      rw [if_pos ha]
    rw [find?_cons_of_neg ha] at h
    obtain ⟨rest, hperm, hchange⟩ := ih h
    refine ⟨a :: rest, (hperm.cons a).trans (.swap e a rest), fun f => ?_⟩
    unfold changeFirst
    rw [if_neg ha]
    exact ((hchange f).cons a).trans (.swap (f e) a rest)

/-! ## An entry changes -/

section
variable (h : TableOk (e :: rest) opened)
include h

/-- The entry for an inode changes, or comes or goes, and with it the count of the inode. -/
theorem TableOk.replace (hkeyed : Keyed inode (rest.filter used))
    (hapart : ∀ a ∈ rest, a.used = true → a.inode ≠ i) (hold : e.used = true → e.inode = i)
    (hnew : e'.used = true → e'.inode = i ∧ e'.count = opened' i ∧ 0 < e'.count)
    (hclosed : e'.used = false → opened' i = 0) (hothers : ∀ j, j ≠ i → opened' j = opened j) :
    TableOk (e' :: rest) opened' := by
  refine ⟨?_, fun a ha ha' => ?_, fun j hj => ?_⟩
  · by_cases hused' : e'.used = true
    · rw [filter_cons_of_pos hused', keyed_cons]
      refine ⟨fun a ha => ?_, hkeyed⟩
      rw [(hnew hused').1]
      exact hapart a (mem_of_mem_filter ha) (mem_filter.mp ha).2
    · rw [filter_cons_of_neg hused']
      exact hkeyed
  · rcases mem_cons.mp ha with rfl | ha
    · rw [(hnew ha').1]
      exact (hnew ha').2
    · rw [hothers _ (hapart a ha ha')]
      exact h.count a (mem_cons_of_mem _ ha) ha'
  · by_cases hji : j = i
    · cases hused' : e'.used with
      | true => exact ⟨e', mem_cons_self, hused', (hnew hused').1.trans hji.symm⟩
      | false =>
        rw [hji, hclosed hused'] at hj
        cases hj
    rw [hothers j hji] at hj
    obtain ⟨a, ha, hfor, hinode⟩ := h.entry j hj
    rcases mem_cons.mp ha with rfl | ha
    · exact absurd (hinode.symm.trans (hold hfor)) hji
    · exact ⟨a, mem_cons_of_mem _ ha, hfor, hinode⟩

section
variable (hused : e.used = true)
include hused

/-- An entry in use for an inode, and the others, none of which is. -/
theorem TableOk.split : (∀ a ∈ rest, a.used = true → a.inode ≠ e.inode) ∧ Keyed inode (rest.filter used) := by
  have hkeyed := h.single
  rw [filter_cons_of_pos hused, keyed_cons] at hkeyed
  exact ⟨fun a ha hused' => hkeyed.1 a (mem_filter.mpr ⟨ha, hused'⟩), hkeyed.2⟩

/-- The count of the inode of an entry changes with the entry. -/
theorem TableOk.recount (hinode : e'.inode = e.inode) (hused' : e'.used = true)
    (hcount : e'.count = opened' e.inode ∧ 0 < e'.count) (hothers : ∀ j, j ≠ e.inode → opened' j = opened j) :
    TableOk (e' :: rest) opened' := by
  obtain ⟨hapart, hkeyed⟩ := h.split hused
  exact h.replace hkeyed hapart (fun _ => rfl) (fun _ => ⟨hinode, hcount⟩)
    (fun hfree => absurd (hfree.symm.trans hused') false_ne_true) hothers

/-- The entry of an inode that is not open any more is cleared. -/
theorem TableOk.clear (hfree : e'.used = false) (hclosed : opened' e.inode = 0)
    (hothers : ∀ j, j ≠ e.inode → opened' j = opened j) : TableOk (e' :: rest) opened' := by
  obtain ⟨hapart, hkeyed⟩ := h.split hused
  exact h.replace hkeyed hapart (fun _ => rfl)
    (fun hused' => absurd (hfree.symm.trans hused') false_ne_true) (fun _ => hclosed) hothers

end

/-- A free entry is used for an inode that was not open. -/
theorem TableOk.take (hfree : e.used = false) (hused' : e'.used = true) (hclosed : opened e'.inode = 0)
    (hcount : e'.count = opened' e'.inode ∧ 0 < e'.count) (hothers : ∀ j, j ≠ e'.inode → opened' j = opened j) :
    TableOk (e' :: rest) opened' := by
  have hkeyed := h.single
  rw [filter_cons_of_neg (by rw [hfree]; exact false_ne_true)] at hkeyed
  refine h.replace hkeyed (fun a ha hused heq => ?_) (fun hused => ?_) (fun _ => ⟨rfl, hcount⟩)
    (fun hfree' => ?_) hothers
  · obtain ⟨hopened, hpos⟩ := h.count a (mem_cons_of_mem _ ha) hused
    rw [heq, hclosed] at hopened
    omega
  · exact absurd (hfree.symm.trans hused) false_ne_true
  · exact absurd (hfree'.symm.trans hused') false_ne_true

end

/-! ## Finding an entry -/

variable (h : TableOk table opened)
include h

/-- `ext4fs_find_open_inode` finds the entry of an inode that is open. -/
theorem TableOk.find_some (hfind : ext4fsFindOpenInode table i = some e) :
    e ∈ table ∧ e.used = true ∧ e.inode = i ∧ e.count = opened i ∧ 0 < e.count := by
  have hmem := mem_of_find?_eq_some hfind
  obtain ⟨hused, hinode⟩ := isFor_iff.mp (find?_some hfind)
  obtain ⟨hcount, hpos⟩ := h.count e hmem hused
  rw [hinode] at hcount
  exact ⟨hmem, hused, hinode, hcount, hpos⟩

theorem TableOk.find_none (hfind : ext4fsFindOpenInode table i = none) : opened i = 0 := by
  by_contra hne
  obtain ⟨e, he, hfor⟩ := h.entry i (Nat.pos_of_ne_zero hne)
  exact find?_eq_none.mp hfind e he (isFor_iff.mpr hfor)

/-- **`ext4fs_get_open_inode`** counts one more open file of the inode; no entry is orphaned or lost by it. -/
theorem getOpenInode_ok (hget : ext4fsGetOpenInode table i = .ok table')
    (hone : opened' i = opened i + 1) (hothers : ∀ j, j ≠ i → opened' j = opened j) :
    TableOk table' opened' ∧
      (∀ a ∈ table, a.orphaned = true → ∃ b ∈ table', b.orphaned = true ∧ b.inode = a.inode) ∧
      ∀ b ∈ table', b.orphaned = true → ∃ a ∈ table, a.orphaned = true ∧ a.inode = b.inode := by
  unfold ext4fsGetOpenInode at hget
  cases hfind : ext4fsFindOpenInode table i with
  | some e =>
    rw [hfind] at hget
    injection hget with hget
    obtain ⟨-, hused, hinode, hcount, hpos⟩ := h.find_some hfind
    obtain ⟨rest, hperm, hchange⟩ := changeFirst_perm hfind
    have hchange := hchange fun e => { e with count := e.count + 1 }
    rw [hget] at hchange
    refine ⟨?_, fun a ha horphaned => ?_, fun b hb horphaned => ?_⟩
    · have hnew : TableOk ({ e with count := e.count + 1 } :: rest) opened' := by
        refine (h.perm hperm.symm).recount hused rfl rfl ⟨?_, Nat.succ_pos _⟩ fun j hj => hothers j ?_
        · rw [hinode, hone, hcount]
        · rw [← hinode]
          exact hj
      exact hnew.perm hchange
    · rcases mem_cons.mp (hperm.mem_iff.mp ha) with rfl | ha
      · exact ⟨_, hchange.mem_iff.mpr mem_cons_self, horphaned, rfl⟩
      · exact ⟨a, hchange.mem_iff.mpr (mem_cons_of_mem _ ha), horphaned, rfl⟩
    · rcases mem_cons.mp (hchange.mem_iff.mp hb) with rfl | hb
      · exact ⟨e, hperm.mem_iff.mpr mem_cons_self, horphaned, rfl⟩
      · exact ⟨b, hperm.mem_iff.mpr (mem_cons_of_mem _ hb), horphaned, rfl⟩
  | none =>
    rw [hfind] at hget
    split_ifs at hget with hany
    injection hget with hget
    obtain ⟨e, hfree⟩ := Option.isSome_iff_exists.mp (find?_isSome.mpr (any_eq_true.mp hany))
    have hunused := find?_some hfree
    rw [and_eq_true, beq_iff_eq, not_eq_true'] at hunused
    obtain ⟨rest, hperm, hchange⟩ := changeFirst_perm hfree
    have hchange := hchange fun e => { e with inode := i, count := 1 }
    rw [hget] at hchange
    refine ⟨?_, fun a ha horphaned => ?_, fun b hb horphaned => ?_⟩
    · have hnew : TableOk ({ e with inode := i, count := 1 } :: rest) opened' := by
        refine (h.perm hperm.symm).take ?_ rfl (h.find_none hfind) ⟨?_, Nat.one_pos⟩ hothers
        · unfold used
          rw [hunused.1, hunused.2]
          rfl
        · rw [hone, h.find_none hfind]
      exact hnew.perm hchange
    · rcases mem_cons.mp (hperm.mem_iff.mp ha) with rfl | ha
      · rw [hunused.2] at horphaned
        cases horphaned
      · exact ⟨a, hchange.mem_iff.mpr (mem_cons_of_mem _ ha), horphaned, rfl⟩
    · rcases mem_cons.mp (hchange.mem_iff.mp hb) with rfl | hb
      · rw [show e.orphaned = true from horphaned] at hunused
        cases hunused.2
      · exact ⟨b, hperm.mem_iff.mpr (mem_cons_of_mem _ hb), horphaned, rfl⟩

end Caffeinix.Ext4
