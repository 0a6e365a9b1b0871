import Caffeinix.Ext4.Identity
import Caffeinix.Ext4.OpenTable

/-!
# `Ext4.OpenFiles` — files that are open without a name (`fs/lwext4/caffeinix.c`)

A file whose last name is removed while it is open gets a name in the orphan directory, so that its inode is not
freed. The entry of the table remembers this, and the last close removes the name.

The invariant: the table is right for the open files, the inodes of open files are allocated, and the orphan
directory has the entries of the table that are orphaned and nothing else. It is lost when the last close of an
orphaned inode can not remove its name, when an orphan name that was made for nothing
can not be removed again, and when somebody works in the orphan directory.
-/

namespace Caffeinix.Ext4

open Nat List NameTree Runs Mount OpenInode
open Function (update update_of_ne update_self)

variable {k k' k₁ : Disk} {m m' : Mount} {P : Ino → Prop} {path old new : Path} {c d i x od : Ino} {n : Name}
  {e a : Entry Name Ino}

/-! ## Volumes with open files -/

/-- The orphan directory is there, and so are the inodes of open files. -/
structure Guarded (P : Ino → Prop) (od : Ino) (k : Disk) : Prop where
  ok : DiskOk k
  orphan : find exact k.entries root ext4fsOrphanName = some ⟨ext4fsOrphanName, od⟩
  directory : k.kind od = .directory
  files : ∀ i, P i → k.live i = true ∧ k.kind i = .file

/-- Nothing has happened to the open files. -/
structure Spares (P : Ino → Prop) (od : Ino) (k k' : Disk) : Prop where
  guarded : Guarded P od k'
  same : ∀ i, P i → k'.generation i = k.generation i ∧ k'.file i = k.file i

section
variable (h : Guarded P od k)
include h

theorem Spares.refl : Spares P od k k := ⟨h, fun _ _ => ⟨rfl, rfl⟩⟩

omit h in
theorem Spares.trans (h : Spares P od k k₁) (h' : Spares P od k₁ k') : Spares P od k k' :=
  ⟨h'.guarded, fun i hi => ⟨(h'.same i hi).1.trans (h.same i hi).1, (h'.same i hi).2.trans (h.same i hi).2⟩⟩

theorem Guarded.orphanDirectory : k.resolve ext4fsOrphanDirectory = some od := by
  show walk exact k.entries root [ext4fsOrphanName] = some od
  rw [walk_singleton, h.orphan]
  rfl

theorem Guarded.isDirectory : k.directory od = true := by
  unfold Disk.directory
  rw [h.directory]
  rfl

theorem Guarded.file (hi : P i) : k.directory i = false := by
  unfold Disk.directory
  rw [(h.files i hi).2]
  rfl

theorem Guarded.live : k.live od = true := h.ok.resolve_live h.orphanDirectory

theorem Guarded.mono {Q : Ino → Prop} (hsub : ∀ i, Q i → P i) : Guarded Q od k :=
  ⟨h.ok, h.orphan, h.directory, fun i hi => h.files i (hsub i hi)⟩

/-- A path that does not go through the orphan directory. -/
def Outside (path : Path) : Prop := ¬ ext4fsOrphanDirectory <+: path

/-- A name outside is neither in the orphan directory nor the name of it. -/
theorem Guarded.outside (hpath : Outside (path ++ [n])) (hd : k.resolve path = some d) :
    d ≠ od ∧ (d = root → n ≠ ext4fsOrphanName) := by
  constructor
  · rintro rfl
    rw [h.ok.path_unique h.isDirectory hd h.orphanDirectory] at hpath
    exact hpath (prefix_append _ _)
  · rintro rfl rfl
    have hnil : path = [] := h.ok.path_unique h.ok.root_directory hd rfl
    rw [hnil] at hpath
    exact hpath (prefix_refl _)

/-! ## Changes of the disk -/

omit h in
/-- Another name than that of the orphan directory goes. -/
theorem find_remove_orphan {entries : Ino → List (Entry Name Ino)}
    (hfind : find exact entries root ext4fsOrphanName = some a) (horphan : d = root → e.name ≠ ext4fsOrphanName)
    (hname : a.name = ext4fsOrphanName) : find exact (remove entries d e) root ext4fsOrphanName = some a := by
  by_cases hroot : d = root
  · exact find_remove hfind fun heq => horphan hroot (heq ▸ hname)
  · unfold find
    rw [remove_of_ne fun hr => hroot hr.symm]
    exact hfind

theorem Spares.contents (file : Ino → Inode) (mode : Ino → Nat) (hfile : ∀ i, P i → file i = k.file i) :
    Spares P od k { k with file := file, mode := mode } :=
  ⟨⟨h.ok.contents file mode, h.orphan, h.directory, h.files⟩, fun i hi => ⟨rfl, hfile i hi⟩⟩

theorem Spares.link (hdir : k.directory d = true) (hlive : k.live d = true)
    (hfree : find exact k.entries d n = none) (hi : k.live i = true) (hfile : k.directory i = false) :
    Spares P od k (k.link d n i) :=
  ⟨⟨h.ok.link hdir hlive hfree hi hfile, find_add h.orphan, h.directory, h.files⟩, fun _ _ => ⟨rfl, rfl⟩⟩

omit h in
/-- Freeing another inode. -/
theorem free_same (hne : i ≠ x) :
    (k.free x).live i = k.live i ∧ (k.free x).generation i = k.generation i ∧ (k.free x).file i = k.file i :=
  ⟨update_of_ne hne _ _, update_of_ne hne _ _, update_of_ne hne _ _⟩

/-- A name goes that is not the last of an open file. -/
theorem Spares.unlink (he : e ∈ k.entries d) (hfile : k.directory e.target = false)
    (horphan : d = root → e.name ≠ ext4fsOrphanName) (hlinks : P e.target → 2 ≤ k.links e.target) :
    Spares P od k (k.unlink d e) := by
  have hsame : ∀ i, P i → (k.unlink d e).live i = k.live i ∧ (k.unlink d e).generation i = k.generation i ∧
      (k.unlink d e).file i = k.file i := by
    intro i hi
    unfold Disk.unlink
    split_ifs with hlast
    · refine free_same ?_
      rintro rfl
      have hmany := hlinks hi
      omega
    · exact ⟨rfl, rfl, rfl⟩
  refine ⟨⟨h.ok.unlink he hfile, ?_, ?_, fun i hi => ?_⟩, fun i hi => (hsame i hi).2⟩
  · rw [unlink_entries]
    exact find_remove_orphan h.orphan horphan rfl
  · rw [unlink_kind]
    exact h.directory
  · rw [unlink_kind, (hsame i hi).1]
    exact h.files i hi

/-- An empty directory goes. -/
theorem Spares.erase (he : e ∈ k.entries d) (hdir : k.directory e.target = true)
    (hempty : k.entries e.target = []) (horphan : d = root → e.name ≠ ext4fsOrphanName) :
    Spares P od k (k.erase d e) := by
  have hne : ∀ i, P i → i ≠ e.target := by
    rintro i hi rfl
    rw [h.file hi] at hdir
    cases hdir
  refine ⟨⟨h.ok.erase he hdir hempty, find_remove_orphan h.orphan horphan rfl, h.directory, fun i hi => ?_⟩,
    fun i hi => ?_⟩
  · refine ⟨?_, (h.files i hi).2⟩
    rw [show (k.erase d e).live i = k.live i from update_of_ne (hne i hi) _ _]
    exact (h.files i hi).1
  · exact ⟨update_of_ne (hne i hi) _ _, update_of_ne (hne i hi) _ _⟩

theorem Spares.move {nd : Ino} (he : e ∈ k.entries d) (hdir : k.directory nd = true) (hlive : k.live nd = true)
    (hfree : find exact k.entries nd n = none) (horphan : d = root → e.name ≠ ext4fsOrphanName) :
    Spares P od k (k.move d e nd n) :=
  ⟨⟨h.ok.move he hdir hlive hfree, find_remove_orphan (find_add h.orphan) horphan rfl, h.directory, h.files⟩,
    fun _ _ => ⟨rfl, rfl⟩⟩

theorem Spares.make (hdir : k.directory d = true) (hlive : k.live d = true)
    (hfree : find exact k.entries d n = none) (hi : k.live i = false) (kind : Kind) :
    Spares P od k (k.make d n i kind) := by
  have hne : ∀ {j}, k.live j = true → j ≠ i := by
    rintro j hj rfl
    rw [hj] at hi
    cases hi
  refine ⟨⟨h.ok.make hdir hlive hfree hi kind, find_add h.orphan, ?_, fun j hj => ?_⟩, fun j hj => ⟨rfl, ?_⟩⟩
  · rw [show (k.make d n i kind).kind od = k.kind od from update_of_ne (hne h.live) _ _]
    exact h.directory
  · obtain ⟨hj, hkind⟩ := h.files j hj
    rw [show (k.make d n i kind).live j = k.live j from update_of_ne (hne hj) _ _,
      show (k.make d n i kind).kind j = k.kind j from update_of_ne (hne hj) _ _]
    exact ⟨hj, hkind⟩
  · exact update_of_ne (hne (h.files j hj).1) _ _

/-! ## Operations outside the orphan directory -/

/-- `Spares`, and the orphan directory has its entries. -/
structure Leaves (P : Ino → Prop) (od : Ino) (k k' : Disk) : Prop extends Spares P od k k' where
  entries : k'.entries od = k.entries od

theorem Leaves.refl : Leaves P od k k := ⟨.refl h, rfl⟩

omit h in
theorem Leaves.trans (h : Leaves P od k k₁) (h' : Leaves P od k₁ k') : Leaves P od k k' :=
  ⟨h.toSpares.trans h'.toSpares, h'.entries.trans h.entries⟩

variable (hpath : Outside (path ++ [n]))
include hpath

theorem Guarded.locate_outside (hlocate : k.locate (path ++ [n]) = some (d, e)) :
    e ∈ k.entries d ∧ od ≠ d ∧ (d = root → e.name ≠ ext4fsOrphanName) := by
  obtain ⟨hname, hresolve, -, hmem, -⟩ := locate_some hlocate
  rw [dropLast_concat] at hname hresolve
  obtain ⟨-, hn⟩ := append_inj' hname rfl
  injection hn with hn
  obtain ⟨hd, horphan⟩ := h.outside hpath hresolve
  rw [hn] at horphan
  exact ⟨hmem, hd.symm, horphan⟩

/-- `ext4_fremove` of a name that is not the last of an open file. -/
theorem Leaves.fremove
    (hlinks : ∀ y, k.resolve (path ++ [n]) = some y → P y → 2 ≤ k.links y) (fault : Option RemoveFault) :
    Leaves P od k (ext4Fremove k (path ++ [n]) fault).1 := by
  unfold ext4Fremove
  rw [if_neg (concat_ne_nil _ _)]
  rcases hlocate : k.locate (path ++ [n]) with _ | l
  · exact .refl h
  obtain ⟨d, e⟩ := l
  obtain ⟨hmem, hod, horphan⟩ := h.locate_outside hpath hlocate
  have hmany := hlinks _ (locate_resolve hlocate).1
  simp only
  split_ifs with hdir
  · exact .refl h
  cases fault with
  | some =>
    simp only
    split_ifs with hempty
    · refine ⟨.contents h _ k.mode fun i hi => update_of_ne ?_ _ _, rfl⟩
      rintro rfl
      have htwo := hmany hi
      omega
    · exact .refl h
  | none =>
    refine ⟨.unlink h hmem (Bool.eq_false_iff.mpr hdir) horphan hmany, ?_⟩
    rw [unlink_entries]
    exact remove_of_ne hod

theorem Leaves.dirRm (hempty : ∀ y, k.resolve (path ++ [n]) = some y → k.directory y = true → k.entries y = [])
    (fault : Option (Errno × Nat)) : Leaves P od k (ext4DirRm k (path ++ [n]) fault).1 := by
  cases hlocate : k.locate (path ++ [n]) with
  | none =>
    unfold ext4DirRm
    rw [hlocate]
    exact .refl h
  | some l =>
    obtain ⟨d, e⟩ := l
    obtain ⟨hmem, hod, horphan⟩ := h.locate_outside hpath hlocate
    by_cases hdir : k.directory e.target = true
    · have hentries := hempty _ (locate_resolve hlocate).1 hdir
      rcases dirRm_empty hlocate hdir hentries with hrm | ⟨r, hrm⟩ <;> rw [hrm]
      · exact ⟨.erase h hmem hdir hentries horphan, remove_of_ne hod⟩
      · exact .refl h
    unfold ext4DirRm
    rw [hlocate]
    simp only
    rw [Bool.not_eq_true] at hdir
    rw [hdir]
    exact .refl h

end

variable {fault : Option Errno} {kind : Kind} {t : OpenInode} {f : FileObject} {r : Removal} {y : Node} {name : Name}

theorem Leaves.flink (h : Guarded P od k) (hpath : Outside (path ++ [n]))
    (hlink : ext4Flink k old (path ++ [n]) fault = .ok k') : Leaves P od k k' := by
  obtain ⟨i, d, n', hi, hfile, hparent, hfree, rfl⟩ := flink_ok hlink
  obtain ⟨hname, hresolve, hdir⟩ := parent_some hparent
  rw [dropLast_concat] at hresolve
  have hod := (h.outside hpath hresolve).1
  exact ⟨.link h hdir (h.ok.parent_live hparent) hfree (h.ok.resolve_live hi) hfile, add_of_ne hod.symm⟩

theorem Leaves.frename {n' : Name} (h : Guarded P od k) (hold : Outside (old ++ [n]))
    (hnew : Outside (new ++ [n'])) (hrename : ext4Frename k (old ++ [n]) (new ++ [n']) fault = .ok k') :
    Leaves P od k k' := by
  obtain ⟨d, e, nd, m', hlocate, hparent, hfree, rfl⟩ := frename_ok hrename
  obtain ⟨hmem, hod, horphan⟩ := h.locate_outside hold hlocate
  obtain ⟨hname, hresolve, hdir⟩ := parent_some hparent
  rw [dropLast_concat] at hresolve
  have hod' := (h.outside hnew hresolve).1
  refine ⟨.move h hmem hdir (h.ok.parent_live hparent) hfree horphan, ?_⟩
  show remove (add k.entries nd _) d e od = k.entries od
  rw [remove_of_ne hod, add_of_ne hod'.symm]

theorem Leaves.create {numbers : List Ino} (h : Guarded P od k) (hpath : Outside (path ++ [n]))
    (hcreate : ext4Create k kind (path ++ [n]) numbers fault = .ok (k', i)) : Leaves P od k k' := by
  refine openCreate_rule (q := [])
    (fun k₁ q d n' j kind' hI hstart hq hdir hfree hj => ?_) (.refl h) rfl rfl
    (fun _ => h.ok.root_directory) (ext4Create_ok hcreate)
  -- each name on the way is outside too
  have hout : Outside (q ++ [n']) := fun horphan => hpath (horphan.trans hstart)
  have hod := (hI.guarded.outside hout hq).1
  exact hI.trans ⟨.make hI.guarded hdir (hI.guarded.ok.resolve_live hq) hfree hj kind', add_of_ne hod.symm⟩

/-! ## The invariant -/

/-- How many open files the inode has. -/
def Mount.opened (m : Mount) (i : Ino) : Nat := m.files.countP fun f => f.inode = i

/-- The orphan directory has the names of the orphaned entries of the table. -/
structure Hidden (od : Ino) (k : Disk) (table : List OpenInode) : Prop where
  entry : ∀ t ∈ table, t.orphaned = true → ⟨hexName t.inode, t.inode⟩ ∈ k.entries od
  orphaned : ∀ a ∈ k.entries od, ∃ t ∈ table, t.orphaned = true ∧ t.inode = a.target ∧ a.name = hexName a.target

theorem Hidden.congr {table : List OpenInode} (h : Hidden od k table) (hentries : k'.entries od = k.entries od) :
    Hidden od k' table :=
  ⟨by rw [hentries]; exact h.entry, by rw [hentries]; exact h.orphaned⟩

/-- An entry changes, and is orphaned as it was. -/
theorem Hidden.change {table table' rest : List OpenInode} {t' : OpenInode} (h : Hidden od k table)
    (hperm : table.Perm (t :: rest)) (hchange : table'.Perm (t' :: rest))
    (horphaned : t'.orphaned = t.orphaned) (hinode : t.orphaned = true → t'.inode = t.inode) :
    Hidden od k table' := by
  refine ⟨fun b hb hb' => ?_, fun a ha => ?_⟩
  · rcases mem_cons.mp (hchange.mem_iff.mp hb) with rfl | hb
    · rw [horphaned] at hb'
      rw [hinode hb']
      exact h.entry t (hperm.mem_iff.mpr mem_cons_self) hb'
    · exact h.entry b (hperm.mem_iff.mpr (mem_cons_of_mem _ hb)) hb'
  · obtain ⟨b, hb, hb', htarget, hname⟩ := h.orphaned a ha
    rcases mem_cons.mp (hperm.mem_iff.mp hb) with rfl | hb
    · exact ⟨t', hchange.mem_iff.mpr mem_cons_self, horphaned.trans hb', (hinode hb').trans htarget, hname⟩
    · exact ⟨b, hchange.mem_iff.mpr (mem_cons_of_mem _ hb), hb', htarget, hname⟩

/-- An entry is cleared and its name goes. -/
theorem Hidden.clear {table table' rest : List OpenInode} {t' : OpenInode} (h : Hidden od k table) (hk : DiskOk k)
    (hperm : table.Perm (t :: rest)) (hchange : table'.Perm (t' :: rest)) (hclear : t'.orphaned = false)
    (hothers : ∀ b ∈ rest, b.used = true → b.inode ≠ t.inode)
    (hentries : k'.entries od = (k.entries od).erase ⟨hexName t.inode, t.inode⟩) : Hidden od k' table' := by
  refine ⟨fun b hb hb' => ?_, fun a ha => ?_⟩
  · rcases mem_cons.mp (hchange.mem_iff.mp hb) with rfl | hb
    · rw [hclear] at hb'
      cases hb'
    have hused : b.used = true := by
      unfold used
      rw [hb', Bool.or_true]
    rw [hentries, (hk.names od).mem_erase]
    refine ⟨fun heq => hothers b hb hused ?_, h.entry b (hperm.mem_iff.mpr (mem_cons_of_mem _ hb)) hb'⟩
    injection heq
  · rw [hentries, (hk.names od).mem_erase] at ha
    obtain ⟨b, hb, hb', htarget, hname⟩ := h.orphaned a ha.2
    rcases mem_cons.mp (hperm.mem_iff.mp hb) with rfl | hb
    · -- the entry of the inode is the one that has gone
      refine absurd ?_ ha.1
      rw [htarget, ← hname]
    · exact ⟨b, hchange.mem_iff.mpr (mem_cons_of_mem _ hb), hb', htarget, hname⟩

structure OpenInv (od : Ino) (m : Mount) : Prop where
  guarded : Guarded (fun i => 0 < m.opened i) od m.disk
  generation : ∀ f ∈ m.files, m.disk.generation f.inode = f.generation
  table : TableOk m.table m.opened
  hidden : Hidden od m.disk m.table
  ids : Keyed FileObject.id m.files
  bound : ∀ f ∈ m.files, f.id < m.nextId
  quiet : m.panic = false

/-- The invariant after a call that opens and closes nothing and leaves the contents of open files. -/
structure Guards (od : Ino) (m m' : Mount) : Prop where
  inv : OpenInv od m'
  files : m'.files = m.files
  same : ∀ i, 0 < m.opened i → m'.disk.file i = m.disk.file i

theorem opened_pos (hf : f ∈ m.files) : 0 < m.opened f.inode :=
  countP_pos_iff.mpr ⟨f, hf, decide_eq_true rfl⟩

theorem Guards.refl (h : OpenInv od m) : Guards od m m := ⟨h, rfl, fun _ _ => rfl⟩

theorem Guards.opened (h : Guards od m m') (i : Ino) : m'.opened i = m.opened i := by
  unfold Mount.opened
  rw [h.files]

/-- Another disk, and inodes with other paths. -/
theorem Guards.leaves (h : Guards od m m') (hl : Leaves (fun i => 0 < m'.opened i) od m'.disk k')
    {nodes : List Node} : Guards od m { m' with disk := k', nodes := nodes } := by
  refine ⟨⟨hl.guarded, fun f hf => ?_, h.inv.table, h.inv.hidden.congr hl.entries, h.inv.ids, h.inv.bound,
    h.inv.quiet⟩, h.files, fun i hi => ?_⟩
  · exact ((hl.same _ (opened_pos hf)).1).trans (h.inv.generation f hf)
  · exact (hl.same i (by rw [h.opened]; exact hi)).2.trans (h.same i hi)

theorem Guards.wrap (h : Guards od m m') (path : Path) (call : WrapCall) : Guards od m (m'.wrap path call).1 := by
  unfold Mount.wrap
  split_ifs
  · exact h
  · exact h
  cases ext4RawInodeFill m'.disk path call.fill with
  | error => exact h
  | ok =>
    refine ⟨⟨h.inv.guarded, h.inv.generation, h.inv.table, h.inv.hidden, h.inv.ids, fun f hf => ?_, h.inv.quiet⟩,
      h.files, h.same⟩
    exact lt_succ_of_lt (h.inv.bound f hf)

/-! ## `ext4fs_remove_locked` -/

/-- An orphan name that was made for nothing is removed again. -/
def Removal.Undone (r : Removal) : Prop := r.remove = none ∨ r.undo = none

theorem Guards.removePlain (h : OpenInv od m) (hpath : Outside (path ++ [n]))
    (hlinks : ∀ y, m.disk.resolve (path ++ [n]) = some y → 0 < m.opened y → 2 ≤ m.disk.links y)
    (fault : Option RemoveFault) : Guards od m (m.removePlain (path ++ [n]) fault).1 := by
  have hl := Leaves.fremove h.guarded hpath hlinks fault
  unfold Mount.removePlain
  rcases hremove : ext4Fremove m.disk (path ++ [n]) fault with ⟨k', _ | r⟩ <;> rw [hremove] at hl
  · exact (Guards.refl h).leaves hl
  · exact (Guards.refl h).leaves hl

/-- The orphan directory is not the root. -/
theorem Guarded.ne_root (h : Guarded P od k) : od ≠ root := h.ok.rootUnnamed root _ (find_mem h.orphan).1

theorem Guarded.locate_orphan (h : Guarded P od k) (hmem : (⟨hexName i, i⟩ : Entry Name Ino) ∈ k.entries od) :
    k.locate (ext4fsOrphanPath i) = some (od, ⟨hexName i, i⟩) := by
  refine locate_of_find (parent_append h.orphanDirectory h.isDirectory (hexName i)) ?_
  cases hfind : find exact k.entries od (hexName i) with
  | none => exact absurd (exact_iff.mpr rfl) (Bool.eq_false_iff.mp (find_none hfind hmem))
  | some =>
    obtain ⟨ha, hname⟩ := find_mem hfind
    rw [(h.ok.names od).inj ha hmem (exact_iff.mp hname)]

/-- The name in the orphan directory goes. -/
theorem Guarded.fremove_orphan (h : Guarded P od k) (hmem : (⟨hexName i, i⟩ : Entry Name Ino) ∈ k.entries od)
    (hfile : k.directory i = false) :
    ext4Fremove k (ext4fsOrphanPath i) none = (k.unlink od ⟨hexName i, i⟩, none) := by
  unfold ext4Fremove
  rw [if_neg (show ext4fsOrphanPath i ≠ [] from concat_ne_nil _ _), h.locate_orphan hmem]
  simp only
  rw [if_neg (Bool.eq_false_iff.mp hfile)]

section
variable (h : OpenInv od m)
include h

section
variable (hpath : Outside (path ++ [n])) (hnumber : m.disk.resolve (path ++ [n]) = some i)
include hpath hnumber

theorem Guards.removeOrphan
    (hlinks : m.disk.links i = 1) (hfind : ext4fsFindOpenInode m.table i = some t) (hr : r.Undone) :
    Guards od m (m.removeOrphan (path ++ [n]) i r).1 := by
  obtain ⟨-, hused, hinode, hcount, hpos⟩ := h.table.find_some hfind
  have hopen : 0 < m.opened i := by omega
  unfold Mount.removeOrphan
  split
  · exact Guards.refl h
  rename_i hlink
  -- the new name is in the orphan directory
  obtain ⟨i', d, n', hi', hfile, hparent, hfree, rfl⟩ := flink_ok hlink
  obtain rfl := Option.some.inj (hnumber.symm.trans hi')
  have hparent' := parent_append h.guarded.orphanDirectory h.guarded.isDirectory (hexName i)
  rw [show ext4fsOrphanDirectory ++ [hexName i] = ext4fsOrphanPath i from rfl, hparent] at hparent'
  injection hparent' with hparent'
  injection hparent' with hd hn
  subst hd hn
  have hs := Spares.link h.guarded h.guarded.isDirectory h.guarded.live hfree (h.guarded.files i hopen).1 hfile
  have htwo : (m.disk.link d (hexName i) i).links i = 2 := by
    show update m.disk.links i (m.disk.links i + 1) i = 2
    rw [update_self, hlinks]
  have hresolve : (m.disk.link d (hexName i) i).resolve (path ++ [n]) = some i := walk_add hnumber
  have hl := Leaves.fremove hs.guarded hpath (fun y hy _ => ?_) r.remove
  · simp only
    rcases hremove : ext4Fremove (m.disk.link d (hexName i) i) (path ++ [n]) r.remove with ⟨k', _ | error⟩ <;>
      rw [hremove] at hl
    · -- the entry is orphaned
      have hentries : k'.entries d = m.disk.entries d ++ [⟨hexName i, i⟩] := hl.entries.trans add_self
      have hsame := hs.trans hl.toSpares
      obtain ⟨rest, hperm, hchange⟩ := changeFirst_perm hfind
      have hchange := hchange fun t => { t with orphaned := true }
      refine ⟨⟨hsame.guarded, fun f hf => ?_, ?_, ⟨fun b hb horphaned => ?_, fun a ha => ?_⟩, h.ids, h.bound,
        h.quiet⟩, rfl, fun j hj => (hsame.same j hj).2⟩
      · exact (hsame.same _ (opened_pos hf)).1.trans (h.generation f hf)
      · have hnew : TableOk ({ t with orphaned := true } :: rest) m.opened := by
          refine (h.table.perm hperm.symm).recount hused rfl ?_ ?_ fun _ _ => rfl
          · unfold used
            rw [Bool.or_true]
          · rw [hinode]
            exact ⟨hcount, hpos⟩
        exact hnew.perm hchange
      · show (⟨hexName b.inode, b.inode⟩ : Entry Name Ino) ∈ k'.entries d
        rw [hentries, mem_append]
        rcases mem_cons.mp (hchange.mem_iff.mp hb) with rfl | hb
        · exact .inr (mem_singleton.mpr (by rw [hinode]))
        · exact .inl (h.hidden.entry b (hperm.mem_iff.mpr (mem_cons_of_mem _ hb)) horphaned)
      · rw [show ((m.settle k').disk.entries d) = k'.entries d from rfl, hentries, mem_append] at ha
        rcases ha with ha | ha
        · obtain ⟨b, hb, horphaned, hrest⟩ := h.hidden.orphaned a ha
          rcases mem_cons.mp (hperm.mem_iff.mp hb) with rfl | hb
          · exact ⟨_, hchange.mem_iff.mpr mem_cons_self, rfl, hrest⟩
          · exact ⟨b, hchange.mem_iff.mpr (mem_cons_of_mem _ hb), horphaned, hrest⟩
        · rw [mem_singleton.mp ha]
          exact ⟨_, hchange.mem_iff.mpr mem_cons_self, rfl, hinode, rfl⟩
    · -- the new name goes again
      have hundo : r.undo = none := by
        refine hr.resolve_left fun hnone => ?_
        rw [hnone] at hremove
        unfold ext4Fremove at hremove
        rw [if_neg (concat_ne_nil _ _)] at hremove
        obtain ⟨c, e, hlocate, rfl⟩ := locate_of_resolve hs.guarded.ok.plain hresolve (concat_ne_nil _ _)
        have hdir : (m.disk.link d (hexName e.target) e.target).directory e.target = false := hfile
        rw [hlocate] at hremove
        simp only at hremove
        rw [if_neg (Bool.eq_false_iff.mp hdir)] at hremove
        cases hremove
      obtain ⟨file, rfl⟩ := fremove_error hremove
      have hmem : (⟨hexName i, i⟩ : Entry Name Ino) ∈ add m.disk.entries d ⟨hexName i, i⟩ d :=
        mem_add.mpr (.inr ⟨rfl, rfl⟩)
      have hnot : (⟨hexName i, i⟩ : Entry Name Ino) ∉ m.disk.entries d := fun hin =>
        absurd (exact_iff.mpr rfl) (Bool.eq_false_iff.mp (find_none hfree hin))
      have hg : Guarded _ d { m.disk.link d (hexName i) i with file := file } := hl.guarded
      simp only
      rw [hundo, hg.fremove_orphan hmem hfile]
      refine (Guards.refl h).leaves ⟨(hs.trans hl.toSpares).trans (Spares.unlink hl.guarded hmem hfile
        (fun hroot => absurd hroot h.guarded.ne_root) fun _ => le_of_eq htwo.symm), ?_⟩
      rw [unlink_entries]
      show remove (add m.disk.entries d ⟨hexName i, i⟩) d ⟨hexName i, i⟩ d = m.disk.entries d
      rw [remove_add hnot]
  · rw [← Option.some.inj (hresolve.symm.trans hy), htwo]

theorem Guards.removeLocked
    (hr : r.Undone) : Guards od m (ext4fsRemoveLocked m (path ++ [n]) i (m.disk.links i) r).1 := by
  unfold ext4fsRemoveLocked
  cases hfind : ext4fsFindOpenInode m.table i with
  | none =>
    refine .removePlain h hpath (fun y hy hopen => ?_) r.remove
    rw [← Option.some.inj (hnumber.symm.trans hy), h.table.find_none hfind] at hopen
    cases hopen
  | some =>
    obtain ⟨-, -, -, hcount, hpos⟩ := h.table.find_some hfind
    simp only
    split_ifs with hplain
    · refine .removePlain h hpath (fun y hy hopen => ?_) r.remove
      obtain rfl := Option.some.inj (hnumber.symm.trans hy)
      -- an open file has a name, so that it has a link
      obtain ⟨d, e, hlocate, htarget⟩ := locate_of_resolve h.guarded.ok.plain hnumber (concat_ne_nil _ _)
      have hlink := h.guarded.ok.links_pos (locate_some hlocate).2.2.2.1 (by rw [htarget]; exact h.guarded.file hopen)
      rw [htarget] at hlink
      omega
    · have hlinks : m.disk.links i = 1 := by omega
      exact .removeOrphan h hpath hnumber hlinks hfind hr

end

/-! ## Calls that open and close nothing -/

theorem Guards.create {call : CreateCall} (hpath : Outside (y.path ++ [call.name]))
    (hundisturbed : Undisturbed m kind y call) : Guards od m (m.create kind y call).1 := by
  refine create_rule (J := fun m' => Guards od m m' ∧
    (m.disk.resolve (y.path ++ [call.name]) = none →
      ∀ z, m'.disk.resolve (y.path ++ [call.name]) = some z → m'.disk.entries z = [] ∧ m.opened z = 0))
    (Guards.refl h) (fun k i hcreate => ⟨(Guards.refl h).leaves (Leaves.create h.guarded hpath hcreate),
      fun hnone z hz => ?_⟩)
    (fun m' mode hJ => ⟨hJ.1.leaves ⟨.contents hJ.1.inv.guarded _ mode fun _ _ => rfl, rfl⟩, hJ.2⟩)
    (fun m' hJ => hJ.1.wrap _ _) (fun hfails m' hJ => ?_)
  · -- the inode of a new name has no entries and is not open
    obtain ⟨hpath', -, hempty, hi⟩ := openCreate_new (q := []) h.guarded.ok rfl
      (fun _ => h.guarded.ok.root_directory) hnone (ext4Create_ok hcreate)
    obtain rfl : i = z := Option.some.inj (hpath'.symm.trans hz)
    refine ⟨hempty, ?_⟩
    by_contra hopen
    rw [(h.guarded.files i (pos_of_ne_zero hopen)).1] at hi
    cases hi
  · rcases hundisturbed with hnone | hok
    · have hnew := hJ.2 hnone
      unfold undoCreate
      split_ifs
      · exact hJ.1.leaves (.dirRm hJ.1.inv.guarded hpath (fun z hz _ => (hnew z hz).1) call.undoDir)
      · refine hJ.1.leaves (.fremove hJ.1.inv.guarded hpath (fun z hz hopen => ?_) call.undo)
        rw [hJ.1.opened, (hnew z hz).2] at hopen
        cases hopen
    · exact absurd hok hfails

theorem Guards.rename {call : RenameCall} (hreadable : call.readable = true) (hundone : call.removal.Undone)
    (hold : Outside call.oldPath) (hnew : Outside call.newPath) : Guards od m (ext4fsRename m call).1 := by
  refine rename_rule (.refl h) (fun x number _ hnumber _ hempty => ?_) (fun _ hg => hg)
    (fun m' k hg hrename => hg.leaves (.frename hg.inv.guarded hold hnew hrename))
  unfold ext4fsRenameRemove
  split
  · have hnew' : Outside (call.newDirectory ++ [call.newName]) := hnew
    have hl := Leaves.dirRm h.guarded hnew' (fun z hz hzdir => ?_) call.removeDir
    · rcases hrm : ext4DirRm m.disk call.newPath call.removeDir with ⟨k, _ | r⟩ <;>
        rw [show call.newDirectory ++ [call.newName] = call.newPath from rfl, hrm] at hl <;>
        exact (Guards.refl h).leaves hl
    · obtain rfl : number = z := Option.some.inj (hnumber.symm.trans hz)
      exact hempty hreadable hzdir
  · exact .removeLocked h hnew hnumber hundone

theorem Guards.unlink (hpath : Outside (y.path ++ [name])) (fill : Option Errno)
    (hr : r.Undone) : Guards od m (ext4fsUnlink m y name fill r).1 :=
  unlink_rule (.refl h) fun _ hnumber => .removeLocked h hpath hnumber hr

theorem Guards.rmdir (hpath : Outside (y.path ++ [name])) (openDir : Option Errno)
    (removeDir : Option (Errno × Nat)) : Guards od m (ext4fsRmdir m y name openDir true removeDir).1 :=
  rmdir_rule (.refl h) fun hempty =>
    (Guards.refl h).leaves (Leaves.dirRm h.guarded hpath (fun z hz _ => hempty z hz) removeDir)

theorem Guards.link (y : Node) {z : Node} (hpath : Outside (z.path ++ [name]))
    (fault : Option Errno) : Guards od m (ext4fsLink m y z name fault).1 :=
  link_rule (Guards.refl h) fun _ hlink => (Guards.refl h).leaves (Leaves.flink h.guarded hpath hlink)

theorem Guards.lookup (y : Node) (name : Name) {call : WrapCall} :
    Guards od m (ext4fsLookup m y name call).1 :=
  lookup_rule (Guards.refl h) fun path => (Guards.refl h).wrap path call

/-! ## Opening, writing and closing -/

/-- Bytes and modes change. -/
theorem OpenInv.contents (file : Ino → Inode) (mode : Ino → Nat) :
    OpenInv od { m with disk := { m.disk with file := file, mode := mode } } :=
  ⟨⟨h.guarded.ok.contents file mode, h.guarded.orphan, h.guarded.directory, h.guarded.files⟩, h.generation, h.table,
    ⟨h.hidden.entry, h.hidden.orphaned⟩, h.ids, h.bound, h.quiet⟩

theorem OpenInv.fileOpen {memory : Bool} :
    OpenInv od (ext4fsFileOpen m y memory fault).1 := by
  unfold ext4fsFileOpen
  split_ifs
  · exact h
  split
  · exact h
  rename_i i hopen
  split
  · exact h
  rename_i table hget
  have hi : m.disk.live i = true ∧ m.disk.kind i = .file := by
    unfold ext4Fopen2 at hopen
    cases fault with
    | some => cases hopen
    | none =>
      cases hresolve : m.disk.resolve y.path with
      | none =>
        rw [hresolve] at hopen
        cases hopen
      | some =>
        rw [hresolve] at hopen
        simp only at hopen
        split_ifs at hopen with hkind
        injection hopen with hopen
        rw [← hopen]
        exact ⟨h.guarded.ok.resolve_live hresolve, hkind⟩
  have hopened : ∀ j, Mount.opened { m with
      table := table, files := ⟨m.nextId, i, m.disk.generation i⟩ :: m.files, nextId := m.nextId + 1 } j =
      m.opened j + if i = j then 1 else 0 := by
    intro j
    unfold Mount.opened
    rw [countP_cons]
    simp only [decide_eq_true_eq]
  have hone := hopened i
  rw [if_pos rfl] at hone
  have hothers : ∀ j, j ≠ i → _ = m.opened j := fun j hj =>
    (hopened j).trans (by rw [if_neg hj.symm, add_zero])
  obtain ⟨htable, hkept, hback⟩ := getOpenInode_ok h.table hget hone hothers
  refine ⟨⟨h.guarded.ok, h.guarded.orphan, h.guarded.directory, fun j hj => ?_⟩, fun f hf => ?_, htable,
    ⟨fun t ht horphaned => ?_, fun a ha => ?_⟩, ?_, fun f hf => ?_, h.quiet⟩
  · by_cases hij : i = j
    · rw [← hij]
      exact hi
    · rw [hopened j, if_neg hij, add_zero] at hj
      exact h.guarded.files j hj
  · rcases mem_cons.mp hf with rfl | hf
    · rfl
    · exact h.generation f hf
  · obtain ⟨t', ht', horphaned', hinode⟩ := hback t ht horphaned
    rw [← hinode]
    exact h.hidden.entry t' ht' horphaned'
  · obtain ⟨t, ht, horphaned, hinode, hname⟩ := h.hidden.orphaned a ha
    obtain ⟨t', ht', horphaned', hinode'⟩ := hkept t ht horphaned
    exact ⟨t', ht', horphaned', hinode'.trans hinode, hname⟩
  · refine keyed_cons.mpr ⟨fun f hf hid => ?_, h.ids⟩
    exact absurd (h.bound f hf) (by rw [hid]; exact lt_irrefl _)
  · rcases mem_cons.mp hf with rfl | hf
    · exact lt_succ_self _
    · exact lt_succ_of_lt (h.bound f hf)

omit h in
theorem putOpenInode_files {inode : Ino} {fault : Option RemoveFault} :
    (ext4fsPutOpenInode m inode fault).files = m.files := by
  unfold ext4fsPutOpenInode
  split
  · rfl
  split_ifs
  · rfl
  · rfl
  · rfl
  · rcases ext4Fremove m.disk (ext4fsOrphanPath inode) fault with ⟨k', _ | r⟩ <;> rfl

/-- The name of an orphaned inode can be removed at its last close. -/
def Released (m : Mount) (f : FileObject) (fault : Option RemoveFault) : Prop :=
  ∀ t ∈ m.table, t.orphaned = true → t.inode = f.inode → t.count = 1 → fault = none

theorem OpenInv.release (hf : f ∈ m.files) {fault : Option RemoveFault} (hreleased : Released m f fault) :
    OpenInv od (ext4fsFileRelease m f fault) ∧
      ∀ g ∈ m.files.erase f, (ext4fsFileRelease m f fault).disk.file g.inode = m.disk.file g.inode := by
  have hopen := opened_pos hf
  have hsub : ∀ g ∈ m.files.erase f, g ∈ m.files := fun g hg => mem_of_mem_erase hg
  have hids : Keyed FileObject.id (m.files.erase f) := h.ids.erase f
  -- one open file of the inode less
  have hopened : ∀ j, (m.files.erase f).countP (fun g => g.inode = j) = m.opened j - if f.inode = j then 1 else 0 := by
    intro j
    rw [countP_erase]
    unfold Mount.opened
    simp only [hf, true_and, decide_eq_true_eq]
  have hless : ∀ j, 0 < (m.files.erase f).countP (fun g => g.inode = j) → 0 < m.opened j := by
    intro j hj
    rw [hopened] at hj
    omega
  have hothers : ∀ j, j ≠ f.inode → (m.files.erase f).countP (fun g => g.inode = j) = m.opened j := by
    intro j hj
    rw [hopened, if_neg hj.symm, Nat.sub_zero]
  have hself : (m.files.erase f).countP (fun g => g.inode = f.inode) = m.opened f.inode - 1 := by
    rw [hopened, if_pos rfl]
  have hstill : ∀ g ∈ m.files.erase f, 0 < (m.files.erase f).countP fun g' => g'.inode = g.inode := fun g hg =>
    countP_pos_iff.mpr ⟨g, hg, decide_eq_true rfl⟩
  unfold ext4fsFileRelease ext4fsPutOpenInode
  rcases hfind : ext4fsFindOpenInode m.table f.inode with _ | t
  · rw [h.table.find_none hfind] at hopen
    cases hopen
  obtain ⟨hmem, hused, hinode, hcount, hpos⟩ := h.table.find_some hfind
  obtain ⟨rest, hperm, hchange⟩ := changeFirst_perm hfind
  have hsplit := (h.table.perm hperm.symm).split hused
  simp only
  rw [if_neg (pos_iff_ne_zero.mp hpos)]
  by_cases hmore : t.count - 1 ≠ 0
  · -- other files of the inode are open
    rw [if_pos hmore]
    have hchange := hchange fun t => { t with count := t.count - 1 }
    have hnew : TableOk ({ t with count := t.count - 1 } :: rest)
        fun j => (m.files.erase f).countP fun g => g.inode = j := by
      refine (h.table.perm hperm.symm).recount hused rfl ?_ ⟨?_, pos_of_ne_zero hmore⟩ fun j hj => ?_
      · unfold used
        rw [Bool.or_eq_true, bne_iff_ne]
        exact .inl hmore
      · rw [hinode, hself, hcount]
      · rw [hinode] at hj
        exact hothers j hj
    exact ⟨⟨h.guarded.mono hless, fun g hg => h.generation g (hsub g hg), hnew.perm hchange,
      h.hidden.change hperm hchange rfl fun _ => rfl, hids, fun g hg => h.bound g (hsub g hg), h.quiet⟩,
      fun _ _ => rfl⟩
  · rw [if_neg hmore]
    have hlast : m.opened f.inode = 1 := by omega
    have hchange := hchange fun _ => ⟨0, 0, false⟩
    have hnew : TableOk (⟨0, 0, false⟩ :: rest) fun j => (m.files.erase f).countP fun g => g.inode = j := by
      refine (h.table.perm hperm.symm).clear hused rfl ?_ fun j hj => ?_
      · rw [hinode, hself, hlast]
      · rw [hinode] at hj
        exact hothers j hj
    by_cases horphaned : t.orphaned = true
    · -- the name in the orphan directory goes
      obtain rfl := hreleased t hmem horphaned hinode (by omega)
      have hentry := h.hidden.entry t hmem horphaned
      rw [hinode] at hentry
      have hremove := h.guarded.fremove_orphan hentry (h.guarded.file hopen)
      rw [horphaned]
      simp only [Bool.not_true, Bool.false_eq_true, if_false]
      rw [hremove]
      have hg : Guarded (fun j => 0 < (m.files.erase f).countP fun g => g.inode = j) od m.disk := h.guarded.mono hless
      have hs := Spares.unlink hg hentry (h.guarded.file hopen) (fun hroot => absurd hroot h.guarded.ne_root)
        (fun hopen' => by
          rw [show (⟨hexName f.inode, f.inode⟩ : Entry Name Ino).target = f.inode from rfl, hself, hlast] at hopen'
          cases hopen')
      refine ⟨⟨hs.guarded, fun g hg => ?_, hnew.perm hchange, ?_, hids, fun g hg => h.bound g (hsub g hg), h.quiet⟩,
        fun g hg => (hs.same _ (hstill g hg)).2⟩
      · exact (hs.same _ (hstill g hg)).1.trans (h.generation g (hsub g hg))
      · refine h.hidden.clear h.guarded.ok hperm hchange rfl hsplit.1 ?_
        rw [hinode]
        exact (congrFun unlink_entries od).trans remove_self
    · rw [Bool.not_eq_true] at horphaned
      rw [horphaned]
      simp only [Bool.not_false, if_true]
      exact ⟨⟨h.guarded.mono hless, fun g hg => h.generation g (hsub g hg), hnew.perm hchange,
        h.hidden.change hperm hchange horphaned.symm (fun ht => by rw [horphaned] at ht; cases ht), hids,
        fun g hg => h.bound g (hsub g hg), h.quiet⟩, fun _ _ => trivial⟩

/-! ## Steps and runs -/

/-- Nothing is done in or with the orphan directory; an orphan name that was made for nothing goes again; a name
    that was there is not removed by a call that should make it; directories can be read; and the last close of an
    orphaned inode can remove its name. -/
def Orderly (m : Mount) : Event → Prop
  | .create directory call =>
    ∀ y ∈ m.node directory, Outside (y.path ++ [call.name]) ∧ Undisturbed m .file y call
  | .mkdir directory call =>
    ∀ y ∈ m.node directory, Outside (y.path ++ [call.name]) ∧ Undisturbed m .directory y call
  | .unlink directory name _ removal => removal.Undone ∧ ∀ y ∈ m.node directory, Outside (y.path ++ [name])
  | .rmdir directory name _ readable _ => readable = true ∧ ∀ y ∈ m.node directory, Outside (y.path ++ [name])
  | .rename old new call =>
    call.readable = true ∧ call.removal.Undone ∧ ∀ y ∈ m.node old, ∀ z ∈ m.node new,
      Outside (y.path ++ [call.oldName]) ∧ Outside (z.path ++ [call.newName])
  | .link _ directory name _ => ∀ y ∈ m.node directory, Outside (y.path ++ [name])
  | .release file fault => ∀ f ∈ m.object file, Released m f fault
  | _ => True

/-- The bytes of an inode are written. -/
def Event.stores (m : Mount) (i : Ino) : Event → Prop
  | .write file _ => ∃ f ∈ m.object file, f.inode = i
  | .truncate inode _ => ∃ y ∈ m.node inode, y.number = i
  | _ => False

/-- What a step keeps. -/
def Keeps (od : Ino) (m : Mount) (a : Event) (m' : Mount) : Prop :=
  OpenInv od m' ∧ ∀ f ∈ m.files, f ∈ m'.files → ¬ a.stores m f.inode → m'.disk.file f.inode = m.disk.file f.inode

omit h in
theorem Guards.keeps (h : Guards od m m') {a : Event} : Keeps od m a m' :=
  ⟨h.inv, fun _ hf _ _ => h.same _ (opened_pos hf)⟩

/-- Bytes of one inode change. -/
theorem Keeps.store {a : Event} (hstores : a.stores m i) (change : Inode → Inode) :
    Keeps od m a (m.store i change) := by
  refine ⟨h.contents _ m.disk.mode, fun f _ _ hnot => update_of_ne ?_ _ _⟩
  rintro rfl
  exact hnot hstores

/-- **A step** keeps the table, the orphan directory and the inodes of open files in order, and the contents of
    open files that it does not write. -/
theorem step_keeps (a : Event) (ha : Orderly m a) : Keeps od m a (m.step a) := by
  have hsame : Keeps od m a m := (Guards.refl h).keeps
  cases a with
  | lookup directory name =>
    exact found_rule hsame fun y _ => (Guards.lookup h y name).keeps
  | create directory call | mkdir directory call =>
    exact found_rule hsame fun y hy => (Guards.create h (ha y hy).1 (ha y hy).2).keeps
  | unlink directory name fill =>
    exact found_rule hsame fun y hy => (Guards.unlink h (ha.2 y hy) fill ha.1).keeps
  | rmdir directory name openDir readable removeDir =>
    obtain ⟨rfl, hout⟩ := ha
    exact found_rule hsame fun y hy => (Guards.rmdir h (hout y hy) openDir removeDir).keeps
  | rename old new call =>
    obtain ⟨hreadable, hundone, hout⟩ := ha
    refine both_rule hsame fun y z hy hz => ?_
    simp only [rename]
    split_ifs
    · exact hsame
    · obtain ⟨hold, hnew⟩ := hout y hy z hz
      exact (show Guards od m (ext4fsRename m (call.between y z)).1 from
        Guards.rename h hreadable hundone hold hnew).keeps
  | link source directory name fault =>
    exact both_rule hsame fun y z _ hz => (Guards.link h y (ha z hz) fault).keeps
  | openFile inode memory fault =>
    refine found_rule hsame fun y _ => ⟨h.fileOpen, fun f _ _ _ => ?_⟩
    simp only [ext4fsFileOpen]
    split_ifs
    · rfl
    cases ext4Fopen2 m.disk y.path fault with
    | error => rfl
    | ok i =>
      simp only
      cases ext4fsGetOpenInode m.table i <;> rfl
  | write file change =>
    simp only [step]
    cases hf : m.object file with
    | none => exact hsame
    | some f =>
      have hstores : (Event.write file change).stores m f.inode := ⟨f, hf, rfl⟩
      exact .store h hstores change
  | truncate inode change =>
    refine found_rule hsame fun y hy => ?_
    simp only [ext4fsTruncate]
    split_ifs
    · have hstores : (Event.truncate inode change).stores m y.number := ⟨y, hy, rfl⟩
      exact .store h hstores change
    · exact hsame
  | setattr inode mode fault =>
    refine found_rule hsame fun y _ => ?_
    cases fault with
    | some => exact hsame
    | none => exact ⟨h.contents m.disk.file _, fun _ _ _ _ => rfl⟩
  | release file fault =>
    simp only [step]
    cases hf : m.object file with
    | none => exact hsame
    | some f =>
      obtain ⟨hinv, hfile⟩ := h.release (mem_of_find?_eq_some hf) (ha f hf)
      refine ⟨hinv, fun g _ hg _ => hfile g ?_⟩
      rw [show (ext4fsFileRelease m f fault).files = m.files.erase f from putOpenInode_files] at hg
      exact hg
  | put =>
    exact ⟨⟨h.guarded, h.generation, h.table, h.hidden, h.ids, h.bound, h.quiet⟩, fun _ _ _ _ => rfl⟩

/-- The volume as `ext4fs_clean_orphan_directory` leaves it: the orphan directory is there, and empty. -/
structure Mountable (od : Ino) (k : Disk) : Prop where
  ok : DiskOk k
  orphan : find exact k.entries root ext4fsOrphanName = some ⟨ext4fsOrphanName, od⟩
  directory : k.kind od = .directory
  empty : k.entries od = []

omit h in
theorem mounted_open (h : Mountable od k) : OpenInv od (mounted k) := by
  have hunused : ∀ t ∈ (mounted k).table, t = ⟨0, 0, false⟩ := fun t ht => eq_of_mem_replicate ht
  refine ⟨⟨h.ok, h.orphan, h.directory, nofun⟩, nofun, ⟨?_, fun t ht hused => ?_, nofun⟩,
    ⟨fun t ht horphaned => ?_, ?_⟩,
    Keyed.nil, nofun, rfl⟩
  · rw [filter_eq_nil_iff.mpr fun t ht => by rw [hunused t ht]; decide]
    exact .nil
  · rw [hunused t ht] at hused
    cases hused
  · rw [hunused t ht] at horphaned
    cases horphaned
  · rw [show (mounted k).disk.entries od = [] from h.empty]
    exact nofun

/-- Open files have their inodes and can be written, the table has one entry for each inode that is open and no
    other, and what is in the orphan directory is open. -/
structure OpenOk (od : Ino) (m : Mount) : Prop where
  inode : ∀ f ∈ m.files, m.disk.live f.inode = true ∧ m.disk.kind f.inode = .file ∧
    m.disk.generation f.inode = f.generation
  writes : ∀ f ∈ m.files, ∀ change, (m.step (.write f.id change)).disk.file f.inode = change (m.disk.file f.inode)
  entry : ∀ f ∈ m.files, ∃ t, m.table.filter (isFor f.inode) = [t] ∧ t.count = m.opened f.inode
  closed : ∀ i, m.opened i = 0 → m.table.filter (isFor i) = []
  orphans : ∀ a ∈ m.disk.entries od, ∃ f ∈ m.files, f.inode = a.target
  quiet : m.panic = false

theorem OpenInv.object (hf : f ∈ m.files) : m.object f.id = some f :=
  (h.ids.find?_eq_some fun _ => decide_eq_true_iff).mpr ⟨hf, rfl⟩

theorem OpenInv.openOk : OpenOk od m := by
  have hfilter : ∀ i, m.table.filter (isFor i) =
      (m.table.filter used).filter fun t => t.inode = i := by
    intro i
    rw [filter_filter]
    refine filter_congr fun t _ => ?_
    rw [Bool.and_comm]
    rfl
  refine ⟨fun f hf => ?_, fun f hf change => ?_, fun f hf => ?_, fun i hi => ?_, fun a ha => ?_, h.quiet⟩
  · obtain ⟨hlive, hkind⟩ := h.guarded.files _ (opened_pos hf)
    exact ⟨hlive, hkind, h.generation f hf⟩
  · simp only [step]
    rw [h.object hf]
    exact update_self _ _ _
  · obtain ⟨t, ht, hused, hinode⟩ := h.table.entry _ (opened_pos hf)
    refine ⟨t, ?_, by rw [(h.table.count t ht hused).1, hinode]⟩
    rw [hfilter, ← hinode]
    exact h.table.single.filter_eq (mem_filter.mpr ⟨ht, hused⟩)
  · refine filter_eq_nil_iff.mpr fun t ht hfor => ?_
    obtain ⟨hused, hinode⟩ := isFor_iff.mp hfor
    have hcount := h.table.count t ht hused
    rw [hinode, hi] at hcount
    omega
  · obtain ⟨t, ht, horphaned, hinode, -⟩ := h.hidden.orphaned a ha
    have hused : t.used = true := by
      unfold used
      rw [horphaned, Bool.or_true]
    obtain ⟨hcount, hpos⟩ := h.table.count t ht hused
    rw [hcount, hinode] at hpos
    obtain ⟨f, hf, hfinode⟩ := countP_pos_iff.mp hpos
    exact ⟨f, hf, of_decide_eq_true hfinode⟩

end

/-- **Open files keep their contents.** In every orderly run the inode of an open file is there, with or without a
    name, and only writing changes its bytes; the table has one entry, with the right count, for each inode that is
    open and none for others; and only inodes that are open are in the orphan directory. -/
theorem ext4_openFiles (k : Disk) (od : Ino) (hk : Mountable od k) (l : List Event)
    (hl : Along step Orderly (mounted k) l) :
    let m := l.foldl step (mounted k)
    OpenOk od m ∧
    ∀ a, Orderly m a → ∀ f ∈ m.files, f ∈ (m.step a).files → ¬ a.stores m f.inode →
      (m.step a).disk.file f.inode = m.disk.file f.inode := by
  intro m
  have hinv : OpenInv od m :=
    hl.foldl (fun m a h ha => (step_keeps h a ha).1) (mounted_open hk)
  exact ⟨hinv.openOk, fun a ha => (step_keeps hinv a ha).2⟩

/-! ## A last close that fails -/

/-- The file `a` is opened, unlinked and closed. -/
def openUnlinkClose (fault : Option RemoveFault) : List Event :=
  [.lookup 0 nameA ⟨true, none⟩, .openFile 1 true none, .unlink 0 nameA none ⟨none, none, none⟩, .release 2 fault]

theorem smallDisk_mountable : Mountable 11 smallDisk := ⟨smallDisk_ok, by decide, rfl, rfl⟩

theorem openUnlink_orderly : Along step Orderly (mounted smallDisk) (openUnlinkClose none) := by
  refine ⟨trivial, trivial, ⟨.inl rfl, fun y hy => ?_⟩, fun f _ t _ _ _ _ => rfl, trivial⟩
  obtain rfl : (⟨0, [], root, 0, false⟩ : Node) = y := Option.some.inj hy
  unfold Outside
  decide

/-- The name in the orphan directory goes with the last close, and so does the entry of the table. -/
theorem openUnlinkClose_open :
    let m := (openUnlinkClose none).foldl step (mounted smallDisk)
    OpenOk 11 m ∧ m.files = [] ∧ m.disk.live 12 = false :=
  ⟨(ext4_openFiles smallDisk 11 smallDisk_mountable _ openUnlink_orderly).1, by decide +kernel, by decide +kernel⟩

/-- Where `ext4_fremove` fails at the last close the file stays in the orphan directory, and the table has an entry
    for it. -/
theorem lastClose_leaves_orphan :
    let m := (openUnlinkClose (some ⟨.nomem, false⟩)).foldl step (mounted smallDisk)
    m.files = [] ∧ m.disk.entries 11 = [⟨hexName 12, 12⟩] ∧ m.table.filter (isFor 12) = [⟨12, 0, true⟩] := by
  decide +kernel

end Caffeinix.Ext4
