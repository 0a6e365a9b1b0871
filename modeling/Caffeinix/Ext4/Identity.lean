import Caffeinix.Ext4.System

/-!
# `Ext4.Identity` — which inode a live inode stands for (`fs/lwext4/caffeinix.c`)

The adapter keeps a path in each live inode and walks it again in every call. The path is right as long as the
name that it ends with is there: a renaming changes the paths of the inode and of all below it. When the name
has been removed another inode may get it, and calls through the old object are made on this one. The same goes
for the number, which a new inode gets once the old one is freed.

So a live inode stands for the inode that it was made for until its name is removed, and calls through it change
no other directory than its own.
-/

namespace Caffeinix.Ext4

open Option List NameTree Runs Mount

variable {k k' k₁ : Disk} {m m' : Mount} {D : Ino → Prop} {path old new : Path} {c d i x : Ino} {n : Name}
  {e : Entry Name Ino}

/-! ## Changes of the tree -/

/-- Names come. -/
structure Grows (k k' : Disk) : Prop where
  ok : DiskOk k'
  resolve : ∀ p y, k.resolve p = some y → k'.resolve p = some y
  generation : ∀ i, k.live i = true → k'.live i = true ∧ k'.generation i = k.generation i

/-- Names go: a path that led somewhere leads there, or nowhere. -/
structure Settles (k k' : Disk) : Prop where
  ok : DiskOk k'
  resolve : ∀ p y, k.resolve p = some y → k'.resolve p = none ∨ k'.resolve p = some y
  generation : ∀ i, k.live i = true → k'.live i = true → k'.generation i = k.generation i

/-- Only the entries of some directories have changed. -/
def Framed (D : Ino → Prop) (k k' : Disk) : Prop := ∀ i, ¬ D i → k'.entries i = k.entries i

theorem Grows.refl (hk : DiskOk k) : Grows k k := ⟨hk, fun _ _ h => h, fun _ h => ⟨h, rfl⟩⟩

theorem Grows.trans (h : Grows k k₁) (h' : Grows k₁ k') : Grows k k' :=
  ⟨h'.ok, fun p y hp => h'.resolve p y (h.resolve p y hp),
    fun i hi => ⟨(h'.generation i (h.generation i hi).1).1,
      (h'.generation i (h.generation i hi).1).2.trans (h.generation i hi).2⟩⟩

theorem Grows.settles (h : Grows k k') : Settles k k' :=
  ⟨h.ok, fun p y hp => .inr (h.resolve p y hp), fun i hi _ => (h.generation i hi).2⟩

theorem Grows.contents (hk : DiskOk k) (file : Ino → Inode) (mode : Ino → Nat) :
    Grows k { k with file := file, mode := mode } :=
  ⟨hk.contents file mode, fun _ _ h => h, fun _ h => ⟨h, rfl⟩⟩

variable {fault : Option Errno} {hardlink q : Path} {kind : Kind} {call : CreateCall} {y : Node}

theorem Grows.flink (hk : DiskOk k) (h : ext4Flink k path hardlink fault = .ok k') : Grows k k' := by
  have hk' := hk.flink h
  obtain ⟨i, d, n, -, -, -, -, rfl⟩ := flink_ok h
  exact ⟨hk', fun _ _ hp => walk_add hp, fun _ hi => ⟨hi, rfl⟩⟩

theorem Grows.make (hk : DiskOk k) (hdir : k.directory d = true) (hlive : k.live d = true)
    (hfree : find exact k.entries d n = none) (hi : k.live i = false) (kind : Kind) : Grows k (k.make d n i kind) := by
  refine ⟨hk.make hdir hlive hfree hi kind, fun _ _ hp => walk_add hp, fun j hj => ⟨?_, rfl⟩⟩
  have hne : j ≠ i := by
    rintro rfl
    rw [hj] at hi
    cases hi
  rw [show (k.make d n i kind).live j = k.live j from Function.update_of_ne hne _ _]
  exact hj

/-- After names have come, an entry goes. -/
theorem Grows.remove (h : Grows k k₁) (hk' : DiskOk k') (hentries : k'.entries = remove k₁.entries d e)
    (hgeneration : ∀ i, k'.live i = true → k'.generation i = k₁.generation i) : Settles k k' := by
  refine ⟨hk', fun p y hp => ?_, fun i hi hi' => (hgeneration i hi').trans (h.generation i hi).2⟩
  cases hresolve : k'.resolve p with
  | none => exact .inl rfl
  | some z =>
    unfold Disk.resolve at hresolve
    rw [hentries] at hresolve
    have hz : k₁.resolve p = some z := walk_of_subset h.ok.unique (fun _ => remove_sublist.subset) hresolve
    rw [h.resolve p y hp] at hz
    exact .inr hz.symm

/-- What is freed is not there any more. -/
theorem free_generation (hi : (k.free x).live i = true) : (k.free x).generation i = k.generation i := by
  have hne : i ≠ x := by
    rintro rfl
    rw [show (k.free i).live i = false from Function.update_self _ _ _] at hi
    cases hi
  exact Function.update_of_ne hne _ _

section
variable (h : Grows k k₁) (he : e ∈ k₁.entries d)
include h he

theorem Grows.unlink (hfile : k₁.directory e.target = false) : Settles k (k₁.unlink d e) := by
  refine h.remove (h.ok.unlink he hfile) unlink_entries fun i hi => ?_
  unfold Disk.unlink at hi ⊢
  split_ifs at hi ⊢
  · exact free_generation hi
  · rfl

theorem Grows.erase (hdir : k₁.directory e.target = true)
    (hempty : k₁.entries e.target = []) : Settles k (k₁.erase d e) :=
  h.remove (h.ok.erase he hdir hempty) rfl fun _ hi => free_generation hi

end

/-- A call of `ext4_fremove`, after names have come. -/
theorem Grows.fremove (h : Grows k k₁) (path : Path) (fault : Option RemoveFault) :
    Settles k (ext4Fremove k₁ path fault).1 := by
  rcases hremove : ext4Fremove k₁ path fault with ⟨k', result⟩
  cases result with
  | some =>
    obtain ⟨file, rfl⟩ := fremove_error hremove
    exact (h.trans (.contents h.ok file k₁.mode)).settles
  | none =>
    rcases fremove_none hremove with rfl | ⟨d, e, hlocate, hfile, rfl⟩
    · exact h.settles
    · exact h.unlink (locate_some hlocate).2.2.2.1 hfile

/-! ## Frames -/

/-- The path leads to one of the directories that may change, unless all may. -/
def Within (D : Ino → Prop) (k : Disk) (path : Path) : Prop := (∀ i, D i) ∨ ∃ d, k.resolve path = some d ∧ D d

/-- Where the path leads later on. -/
theorem Within.of_settles (h : Within D k path) (hs : Settles k k') (hd : k'.resolve path = some d) : D d := by
  rcases h with hall | ⟨d₀, hpath, hD⟩
  · exact hall d
  rcases hs.resolve path d₀ hpath with hnone | hsome
  · rw [hnone] at hd
    cases hd
  · rw [hsome] at hd
    injection hd with hd
    rw [← hd]
    exact hD

theorem Framed.trans (h : Framed D k k₁) (h' : Framed D k₁ k') : Framed D k k' :=
  fun i hi => (h' i hi).trans (h i hi)

theorem Framed.add (hd : D d) : Framed D k { k with entries := add k.entries d e } :=
  fun _ hi => add_of_ne fun hid => hi (by rw [hid]; exact hd)

theorem Framed.remove (hd : D d) (hentries : k'.entries = NameTree.remove k.entries d e) : Framed D k k' := by
  intro i hi
  rw [hentries]
  exact remove_of_ne fun hid => hi (by rw [hid]; exact hd)

theorem Framed.fremove (hd : ∀ d e, k.locate path = some (d, e) → D d) (fault : Option RemoveFault) :
    Framed D k (ext4Fremove k path fault).1 := by
  rcases hremove : ext4Fremove k path fault with ⟨k', result⟩
  cases result with
  | some =>
    obtain ⟨file, rfl⟩ := fremove_error hremove
    exact fun _ _ => rfl
  | none =>
    rcases fremove_none hremove with rfl | ⟨d, e, hlocate, -, rfl⟩
    · exact fun _ _ => rfl
    · exact .remove (hd d e hlocate) unlink_entries

theorem Framed.flink (hd : ∀ d, k.resolve hardlink.dropLast = some d → D d)
    (h : ext4Flink k path hardlink fault = .ok k') : Framed D k k' := by
  obtain ⟨i, d, n, -, -, hparent, -, rfl⟩ := flink_ok h
  exact .add (hd d (parent_some hparent).2.1)

/-! ## The invariant -/

/-- An inode whose name has not been removed stands for the inode that it was made for. -/
def Right (k : Disk) (y : Node) : Prop :=
  y.removed = false → k.resolve y.path = some y.number ∧ k.generation y.number = y.generation

structure IdentityInv (m : Mount) : Prop where
  disk : DiskOk m.disk
  nodes : ∀ y ∈ m.nodes, Right m.disk y

/-- The invariant, and that only the entries of some directories differ. -/
structure Serves (D : Ino → Prop) (k : Disk) (m : Mount) : Prop where
  inv : IdentityInv m
  frame : Framed D k m.disk

section
variable (h : IdentityInv m)
include h

theorem Serves.refl : Serves D m.disk m := ⟨h, fun _ _ => rfl⟩

omit h in
theorem Right.grows (h : Right k y) (hk : DiskOk k) (hg : Grows k k') : Right k' y := by
  intro hremoved
  obtain ⟨hpath, hgeneration⟩ := h hremoved
  exact ⟨hg.resolve _ _ hpath, (hg.generation _ (hk.resolve_live hpath)).2.trans hgeneration⟩

theorem IdentityInv.grows (hg : Grows m.disk k') : IdentityInv { m with disk := k' } :=
  ⟨hg.ok, fun y hy => (h.nodes y hy).grows h.disk hg⟩

theorem IdentityInv.settle (hs : Settles m.disk k') : IdentityInv (m.settle k') := by
  refine ⟨hs.ok, fun z hz => ?_⟩
  obtain ⟨y, hy, rfl⟩ := mem_map.mp hz
  split_ifs with hlost
  · exact nofun
  intro hremoved
  obtain ⟨hpath, hgeneration⟩ := h.nodes y hy hremoved
  have hpath' : k'.resolve y.path = some y.number := by
    refine (hs.resolve _ _ hpath).resolve_left fun hnone => hlost ⟨?_, hnone⟩
    rw [hpath]
    rfl
  exact ⟨hpath', (hs.generation _ (h.disk.resolve_live hpath) (hs.ok.resolve_live hpath')).trans hgeneration⟩

/-- The table and the open files do not matter. -/
theorem IdentityInv.files (table : List OpenInode) (files : List FileObject) (nextId : Nat) (panic : Bool) :
    IdentityInv { m with table := table, files := files, nextId := nextId, panic := panic } :=
  ⟨h.disk, h.nodes⟩

theorem IdentityInv.wrap (path : Path) (c : WrapCall) : IdentityInv (m.wrap path c).1 := by
  unfold Mount.wrap
  split_ifs
  · exact h
  · exact h
  cases hfill : ext4RawInodeFill m.disk path c.fill with
  | error => exact h
  | ok =>
    refine ⟨h.disk, fun y hy => ?_⟩
    rcases mem_cons.mp hy with rfl | hy
    · exact fun _ => ⟨rawInodeFill_ok hfill, rfl⟩
    · exact h.nodes y hy

omit h in
theorem wrap_disk (m : Mount) (path : Path) (c : WrapCall) : (m.wrap path c).1.disk = m.disk := by
  unfold Mount.wrap
  split_ifs
  · rfl
  · rfl
  · cases ext4RawInodeFill m.disk path c.fill <;> rfl

/-! ## Calls that remove names -/

/-- Names have gone, and the inodes that lost theirs know. -/
structure Removes (D : Ino → Prop) (m m' : Mount) : Prop where
  inv : IdentityInv m'
  settles : Settles m.disk m'.disk
  frame : Framed D m.disk m'.disk

theorem Removes.refl : Removes D m m := ⟨h, (Grows.refl h.disk).settles, fun _ _ => rfl⟩

theorem Removes.settle (hs : Settles m.disk k') (hf : Framed D m.disk k') :
    Removes D m (m.settle k') := ⟨h.settle hs, hs, hf⟩

omit h in
theorem Removes.files (h : Removes D m m') (table : List OpenInode) (files : List FileObject) (nextId : Nat)
    (panic : Bool) : Removes D m { m' with table := table, files := files, nextId := nextId, panic := panic } :=
  ⟨h.inv.files table files nextId panic, h.settles, h.frame⟩

omit h in
/-- The directory of a name in a directory that may change. -/
theorem Within.locate (h : Within D k path) (hs : Settles k k') (hlocate : k'.locate (path ++ [n]) = some (d, e)) :
    D d := by
  have hresolve := (locate_some hlocate).2.1
  rw [dropLast_concat] at hresolve
  exact h.of_settles hs hresolve

omit h in
/-- A name in such a directory is removed, after names have come. -/
theorem Within.fremove (h : Within D k path) (hg : Grows k k') (fault : Option RemoveFault) :
    Settles k (ext4Fremove k' (path ++ [n]) fault).1 ∧ Framed D k' (ext4Fremove k' (path ++ [n]) fault).1 :=
  ⟨hg.fremove _ fault, .fremove (fun _ _ hlocate => h.locate hg.settles hlocate) fault⟩

section
variable (hin : Within D m.disk path)
include hin

theorem Removes.removePlain (fault : Option RemoveFault) :
    Removes D m (m.removePlain (path ++ [n]) fault).1 := by
  obtain ⟨hs, hf⟩ := hin.fremove (n := n) (Grows.refl h.disk) fault
  unfold Mount.removePlain
  rcases hremove : ext4Fremove m.disk (path ++ [n]) fault with ⟨k', result⟩
  rw [hremove] at hs hf
  cases result with
  | none => exact Removes.settle h hs hf
  | some =>
    obtain ⟨file, rfl⟩ := fremove_error hremove
    exact ⟨h.grows (Grows.contents h.disk file m.disk.mode), hs, hf⟩

section
variable (horphan : ∀ d, m.disk.resolve ext4fsOrphanDirectory = some d → D d) (inode : Ino)
include horphan inode

theorem Removes.removeOrphan (r : Removal) : Removes D m (m.removeOrphan (path ++ [n]) inode r).1 := by
  unfold Mount.removeOrphan
  split
  · exact .refl h
  rename_i k hlink
  have hg := Grows.flink h.disk hlink
  have hf : Framed D m.disk k := by
    refine .flink (fun d hd => ?_) hlink
    exact horphan d hd
  have hin' : Within D m.disk ext4fsOrphanDirectory := by
    obtain ⟨_, od, _, -, -, hparent, -, -⟩ := flink_ok hlink
    have hod : m.disk.resolve ext4fsOrphanDirectory = some od := (parent_some hparent).2.1
    exact .inr ⟨od, hod, horphan od hod⟩
  obtain ⟨hs, hf'⟩ := hin.fremove (n := n) hg r.remove
  simp only
  rcases hremove : ext4Fremove k (path ++ [n]) r.remove with ⟨k', result⟩
  rw [hremove] at hs hf'
  cases result with
  | none => exact (Removes.settle h hs (hf.trans hf')).files _ m.files m.nextId m.panic
  | some =>
    obtain ⟨file, rfl⟩ := fremove_error hremove
    obtain ⟨hs, hf''⟩ := hin'.fremove (hg.trans (.contents hg.ok file k.mode)) r.undo
    exact .settle h hs ((hf.trans hf').trans hf'')

theorem Removes.removeLocked
    (links : Nat) (r : Removal) : Removes D m (ext4fsRemoveLocked m (path ++ [n]) inode links r).1 := by
  unfold ext4fsRemoveLocked
  cases ext4fsFindOpenInode m.table inode with
  | none => exact .removePlain h hin r.remove
  | some =>
    simp only
    split_ifs
    · exact .removePlain h hin r.remove
    · exact .removeOrphan h hin horphan inode r

end

/-- `ext4_dir_rm` of an empty directory, after names have come. -/
theorem Removes.dirRm
    (hempty : ∀ y, m.disk.resolve (path ++ [n]) = some y → m.disk.directory y = true → m.disk.entries y = [])
    (fault : Option (Errno × Nat)) : Removes D m (m.settle (ext4DirRm m.disk (path ++ [n]) fault).1) := by
  have hg := Grows.refl h.disk
  have hsame : Removes D m (m.settle m.disk) := Removes.settle h hg.settles fun _ _ => rfl
  cases hlocate : m.disk.locate (path ++ [n]) with
  | none =>
    unfold ext4DirRm
    rw [hlocate]
    exact hsame
  | some l =>
    obtain ⟨d, e⟩ := l
    by_cases hdir : m.disk.directory e.target = true
    · have hentries := hempty _ (locate_resolve hlocate).1 hdir
      rcases dirRm_empty hlocate hdir hentries with hrm | ⟨r, hrm⟩ <;> rw [hrm]
      · have hmem := (locate_some hlocate).2.2.2.1
        exact Removes.settle h (hg.erase hmem hdir hentries) (Framed.remove (hin.locate hg.settles hlocate) rfl)
      · exact hsame
    unfold ext4DirRm
    rw [hlocate]
    simp only
    rw [Bool.not_eq_true] at hdir
    rw [hdir]
    exact hsame

omit hin in
theorem Removes.putOpenInode (horphan : ∀ d, m.disk.resolve ext4fsOrphanDirectory = some d → D d) (inode : Ino)
    (fault : Option RemoveFault) : Removes D m (ext4fsPutOpenInode m inode fault) := by
  have hg := Grows.refl h.disk
  have hs := hg.fremove (ext4fsOrphanPath inode) fault
  have hf : Framed D m.disk (ext4Fremove m.disk (ext4fsOrphanPath inode) fault).1 :=
    Framed.fremove (fun d _ hlocate => horphan d (locate_some hlocate).2.1) fault
  have hsame : Removes D m m := Removes.refl h
  unfold ext4fsPutOpenInode
  split
  · exact hsame.files m.table m.files m.nextId true
  rename_i entry _
  split
  · exact hsame.files m.table m.files m.nextId true
  split
  · exact hsame.files _ m.files m.nextId m.panic
  split
  · exact hsame.files _ m.files m.nextId m.panic
  rcases hremove : ext4Fremove m.disk (ext4fsOrphanPath inode) fault with ⟨k', result⟩
  rw [hremove] at hs hf
  cases result with
  | none => exact (Removes.settle h hs hf).files _ m.files m.nextId m.panic
  | some =>
    obtain ⟨file, rfl⟩ := fremove_error hremove
    have hcontents : Removes D m { m with disk := { m.disk with file := file } } :=
      ⟨h.grows (Grows.contents h.disk file m.disk.mode), hs, hf⟩
    exact hcontents.files _ m.files m.nextId m.panic

/-! ## Calls that make names -/

omit h in
omit hin in
/-- The directories on the way to a name in a directory that is there are there. -/
theorem Within.goal (h : Within D k path) (hg : Grows k k₁) {n' : Name} (hstart : q ++ [n'] <+: path ++ [n])
    (hq : k₁.resolve q = some d) (hfree : find exact k₁.entries d n' = none) : D d := by
  rcases h with hall | ⟨d₀, hpath, hD⟩
  · exact hall d
  have hpath' := hg.resolve _ _ hpath
  rcases prefix_concat_iff.mp hstart with heq | hshort
  · obtain ⟨rfl, -⟩ := append_inj' heq rfl
    rw [hpath'] at hq
    injection hq with hq
    rw [← hq]
    exact hD
  -- the walk to the directory would stop at the name
  obtain ⟨r, hr⟩ := hshort
  unfold Disk.resolve at hpath' hq
  rw [← hr, append_assoc, walk_append, hq, bind_some, singleton_append,
    walk_cons_none hfree] at hpath'
  cases hpath'

/-- The state while a call of `ext4fs_create` or `ext4fs_mkdir` goes on. -/
structure Making (D : Ino → Prop) (k : Disk) (m : Mount) : Prop where
  inv : IdentityInv m
  grows : Grows k m.disk
  frame : Framed D k m.disk

theorem create_making {numbers : List Ino}
    (hcreate : ext4Create m.disk kind (path ++ [n]) numbers fault = .ok (k', i)) :
    Making D m.disk { m with disk := k' } := by
  have hdisk : Grows m.disk k' ∧ Framed D m.disk k' := by
    refine openCreate_rule (I := fun k => Grows m.disk k ∧ Framed D m.disk k) (q := [])
      (fun k q d n' j kind' hI hstart hq hdir hfree hj => ?_) ⟨.refl h.disk, fun _ _ => rfl⟩ rfl rfl
      (fun _ => h.disk.root_directory) (ext4Create_ok hcreate)
    obtain ⟨hg, hf⟩ := hI
    refine ⟨hg.trans (.make hg.ok hdir (hg.ok.resolve_live hq) hfree hj kind'), hf.trans fun c hc => ?_⟩
    exact add_of_ne fun hcd => hc (by rw [hcd]; exact hin.goal hg hstart hq hfree)
  exact ⟨h.grows hdisk.1, hdisk.1, hdisk.2⟩

end

omit h in
/-- What has been made is removed again; a directory if it is empty. -/
theorem Making.undo (h : Making D k m) (hin : Within D k path)
    (hempty : kind = .directory → ∀ y, m.disk.resolve (path ++ [n]) = some y → m.disk.directory y = true →
      m.disk.entries y = []) :
    Serves D k (m.undoCreate kind (path ++ [n]) call) := by
  have hin' : Within D m.disk path := by
    rcases hin with hall | ⟨d, hpath, hD⟩
    · exact .inl hall
    · exact .inr ⟨d, h.grows.resolve _ _ hpath, hD⟩
  unfold undoCreate
  split_ifs with hkind
  · have hr := Removes.dirRm h.inv hin' (hempty hkind) call.undoDir
    exact ⟨hr.inv, h.frame.trans hr.frame⟩
  obtain ⟨hs, hf⟩ := hin'.fremove (n := n) (Grows.refl h.inv.disk) call.undo
  exact ⟨h.inv.settle hs, h.frame.trans hf⟩

/-- A directory that is made on a name which is there does not fail afterwards. -/
def Undisturbed (m : Mount) (kind : Kind) (y : Node) (call : CreateCall) : Prop :=
  m.disk.resolve (y.path ++ [call.name]) = none ∨ (m.create kind y call).2 = .ok

theorem Serves.create (hin : Within D m.disk y.path)
    (hundisturbed : kind = .directory → Undisturbed m kind y call) :
    Serves D m.disk (m.create kind y call).1 := by
  refine create_rule (J := fun m' => Making D m.disk m' ∧
    (m.disk.resolve (y.path ++ [call.name]) = none →
      ∀ z, m'.disk.resolve (y.path ++ [call.name]) = some z → m'.disk.entries z = []))
    (.refl h) (fun k i hcreate => ⟨create_making h hin hcreate, fun hnone z hz => ?_⟩)
    (fun m' mode hJ => ⟨⟨hJ.1.inv.grows (.contents hJ.1.inv.disk _ mode),
      hJ.1.grows.trans (.contents hJ.1.inv.disk _ mode), hJ.1.frame⟩, hJ.2⟩)
    (fun m' hJ => ⟨hJ.1.inv.wrap _ _, ?_⟩) (fun hfails m' hJ => ?_)
  · -- the inode of a new name has no entries
    obtain ⟨hpath, -, hempty, -⟩ :=
      openCreate_new (q := []) h.disk rfl (fun _ => h.disk.root_directory) hnone (ext4Create_ok hcreate)
    obtain rfl : i = z := some.inj (hpath.symm.trans hz)
    exact hempty
  · rw [wrap_disk]
    exact hJ.1.frame
  · refine hJ.1.undo hin fun hkind z hz _ => ?_
    rcases hundisturbed hkind with hnone | hok
    · exact hJ.2 hnone z hz
    · exact absurd hok hfails

/-! ## `ext4fs_rename` -/

omit h in
/-- A walk below an entry that goes does not come back to it, and one that goes another way does not use it. -/
theorem resolve_unnamed (hk : DiskOk k) (hlocate : k.locate old = some (d, e)) {p : Path} {y : Ino}
    (hq : k.resolve q = some c) (hwalk : walk exact k.entries c p = some y)
    (hapart : ∀ r, r ++ [e.name] <+: p → q ++ r ≠ old.dropLast) :
    walk exact (remove k.entries d e) c p = some y := by
  obtain ⟨-, hresolve, hdir, -, -⟩ := locate_some hlocate
  refine walk_remove_of hwalk fun r m' s hp hr hfind => hapart r ?_ ?_
  · obtain ⟨-, hname⟩ := find_mem hfind
    rw [exact_iff.mp hname]
    exact ⟨s, by rw [hp, append_assoc]; rfl⟩
  · -- a directory has one path
    refine hk.path_unique hdir ?_ hresolve
    unfold Disk.resolve at hq ⊢
    rw [walk_append, hq, bind_some]
    exact hr

omit h in
/-- A path that has been rebased leads where it led. -/
theorem rename_resolve (hk : DiskOk k) (h : ext4Frename k old new fault = .ok k')
    (hbelow : ¬ old <+: new.dropLast) {y : Ino} (hpath : k.resolve path = some y) :
    k'.resolve (rebased old new path) = some y := by
  obtain ⟨od, e, nd, n, hlocate, hparent, hfree, rfl⟩ := frename_ok h
  obtain ⟨hold, -, -, hmem, -⟩ := locate_some hlocate
  obtain ⟨hnew, hnd, -⟩ := parent_some hparent
  have hentries : (k.move od e nd n).entries = add (remove k.entries od e) nd ⟨n, e.target⟩ := remove_add_comm hmem
  -- paths that do not come through the old one
  have hother : ∀ {p z}, k.resolve p = some z → ¬ old <+: p → walk exact (remove k.entries od e) root p = some z := by
    intro p z hp hapart
    refine resolve_unnamed hk hlocate (q := []) rfl hp fun r hr heq => hapart ?_
    rw [hold, ← heq]
    exact hr
  unfold rebased
  split_ifs with hstart
  · obtain ⟨s, rfl⟩ := hstart
    rw [drop_left]
    have holdTarget : walk exact k.entries root old = some e.target := (locate_resolve hlocate).1
    unfold Disk.resolve at hpath
    rw [walk_append, holdTarget, bind_some] at hpath
    -- the new name leads to the inode, and from there all is as before
    have hnew' : (k.move od e nd n).resolve new = some e.target := by
      unfold Disk.resolve
      rw [hentries, hnew, walk_append, walk_add (hother hnd hbelow), bind_some, walk_singleton,
        find_add_self (find_remove_none hfree) (exact_iff.mpr rfl)]
      rfl
    have hrest : walk exact (remove k.entries od e) e.target s = some y := by
      refine resolve_unnamed hk hlocate holdTarget hpath fun r _ heq => ?_
      have hlength := congrArg List.length heq
      have hpos : 0 < old.length := by
        rw [hold, length_append]
        exact Nat.lt_of_lt_of_le Nat.one_pos (Nat.le_add_left 1 _)
      rw [length_append, length_dropLast] at hlength
      omega
    unfold Disk.resolve at hnew' ⊢
    rw [walk_append, hnew', bind_some, hentries]
    exact walk_add hrest
  · unfold Disk.resolve
    rw [hentries]
    exact walk_add (hother hpath hstart)

theorem Serves.rename {call : RenameCall} (hreadable : call.readable = true)
    (hold : Within D m.disk call.oldDirectory) (hnew : Within D m.disk call.newDirectory)
    (horphan : ∀ d, m.disk.resolve ext4fsOrphanDirectory = some d → D d)
    (hbelow : ¬ call.oldPath <+: call.newDirectory) : Serves D m.disk (ext4fsRename m call).1 := by
  refine rename_rule (J := Removes D m) (.refl h) (fun x number _ hnumber _ hempty => ?_)
    (fun m' hr => ⟨hr.inv, hr.frame⟩) (fun m' k hr hrename => ?_)
  · unfold ext4fsRenameRemove
    split
    · have hr := Removes.dirRm h hnew (n := call.newName) (fun y hy hydir => ?_) call.removeDir
      · rcases hrm : ext4DirRm m.disk call.newPath call.removeDir with ⟨k, _ | r⟩ <;>
          rw [show call.newDirectory ++ [call.newName] = call.newPath from rfl, hrm] at hr <;> exact hr
      · have heq : m.disk.resolve (call.newDirectory ++ [call.newName]) = some number := hnumber
        rw [heq] at hy
        injection hy with hy
        rw [← hy] at hydir ⊢
        exact hempty hreadable hydir
    · exact .removeLocked h hnew horphan number _ call.removal
  · refine ⟨⟨hr.inv.disk.frename hrename, fun z hz => ?_⟩, ?_⟩
    · obtain ⟨y, hy, rfl⟩ := mem_map.mp hz
      intro hremoved
      obtain ⟨hpath, hgeneration⟩ := hr.inv.nodes y hy hremoved
      refine ⟨rename_resolve hr.inv.disk hrename ?_ hpath, ?_⟩
      · rw [show call.newPath = call.newDirectory ++ [call.newName] from rfl, dropLast_concat]
        exact hbelow
      · obtain ⟨od, e, nd, n, -, -, -, rfl⟩ := frename_ok hrename
        exact hgeneration
    · obtain ⟨od, e, nd, n, hlocate, hparent, -, rfl⟩ := frename_ok hrename
      have hod : D od := hold.locate hr.settles hlocate
      have hnd : D nd := by
        have hresolve := (parent_some hparent).2.1
        rw [show call.newPath = call.newDirectory ++ [call.newName] from rfl, dropLast_concat] at hresolve
        exact hnew.of_settles hr.settles hresolve
      exact hr.frame.trans ((Framed.add hnd).trans (Framed.remove hod rfl))

/-! ## Steps and runs -/

/-- Directories can be read, and making a directory on a name which is there does not fail. -/
def Benign (m : Mount) : Event → Prop
  | .rmdir _ _ _ readable _ => readable = true
  | .rename _ _ call => call.readable = true
  | .mkdir directory call => ∀ y ∈ m.node directory, Undisturbed m .directory y call
  | _ => True

/-- The inodes that a call makes walks from. -/
def Event.uses (m : Mount) : Event → List Node
  | .lookup directory .. | .create directory .. | .mkdir directory .. | .unlink directory .. | .rmdir directory .. =>
    (m.node directory).toList
  | .rename old new _ => (m.node old).toList ++ (m.node new).toList
  | .link source directory .. => (m.node source).toList ++ (m.node directory).toList
  | .openFile inode .. => (m.node inode).toList
  | _ => []

omit h in
theorem node_mem {id : Nat} (h : m.node id = some y) : y ∈ m.nodes := mem_of_find?_eq_some h

theorem IdentityInv.subset {nodes : List Node} (hsub : ∀ y ∈ nodes, y ∈ m.nodes) :
    IdentityInv { m with nodes := nodes } := ⟨h.disk, fun y hy => h.nodes y (hsub y hy)⟩

theorem Serves.lookup (y : Node) (name : Name) {call : WrapCall} :
    Serves D m.disk (ext4fsLookup m y name call).1 :=
  lookup_rule (.refl h) fun path => ⟨h.wrap path call, fun i _ => by rw [wrap_disk]⟩

theorem Serves.unlink (hin : Within D m.disk y.path)
    (horphan : ∀ d, m.disk.resolve ext4fsOrphanDirectory = some d → D d) (name : Name)
    (fill : Option Errno) (r : Removal) : Serves D m.disk (ext4fsUnlink m y name fill r).1 := by
  refine unlink_rule (Serves.refl h) fun inode _ => ?_
  have hr := Removes.removeLocked (n := name) h hin horphan inode (m.disk.links inode) r
  exact ⟨hr.inv, hr.frame⟩

theorem Serves.rmdir (hin : Within D m.disk y.path) (name : Name) (openDir : Option Errno)
    (removeDir : Option (Errno × Nat)) : Serves D m.disk (ext4fsRmdir m y name openDir true removeDir).1 := by
  refine rmdir_rule (Serves.refl h) fun hempty => ?_
  have hr := Removes.dirRm h hin (fun z hz _ => hempty z hz) removeDir
  exact ⟨hr.inv, hr.frame⟩

theorem Serves.link (y : Node) {z : Node} (hin : Within D m.disk z.path) (name : Name)
    (fault : Option Errno) : Serves D m.disk (ext4fsLink m y z name fault).1 := by
  refine link_rule (.refl h) fun k hlink => ?_
  refine ⟨h.grows (.flink h.disk hlink), .flink (fun d hd => ?_) hlink⟩
  rw [dropLast_concat] at hd
  exact hin.of_settles (Grows.refl h.disk).settles hd

theorem Serves.fileOpen {memory : Bool} :
    Serves D m.disk (ext4fsFileOpen m y memory fault).1 := by
  unfold ext4fsFileOpen
  split_ifs
  · exact .refl h
  cases ext4Fopen2 m.disk y.path fault with
  | error => exact .refl h
  | ok inode =>
    simp only
    cases ext4fsGetOpenInode m.table inode with
    | error => exact .refl h
    | ok => exact ⟨h.files _ _ _ _, fun _ _ => rfl⟩

/-- A change of contents and modes. -/
theorem Serves.contents (file : Ino → Inode) (mode : Ino → Nat) :
    Serves D m.disk { m with disk := { m.disk with file := file, mode := mode } } :=
  ⟨h.grows (.contents h.disk file mode), fun _ _ => rfl⟩

/-- **A step** keeps what inodes stand for, and changes only entries of the directories of its inodes and of the
    orphan directory. -/
theorem step_serves (a : Event) (hsound : Benign m a) (huses : ∀ y ∈ a.uses m, Within D m.disk y.path)
    (horphan : ∀ d, m.disk.resolve ext4fsOrphanDirectory = some d → D d) : Serves D m.disk (m.step a) := by
  have hone : ∀ {id : Nat} {y : Node}, m.node id = some y → y ∈ (m.node id).toList := fun hy => by
    rw [hy]
    exact mem_singleton_self _
  have hsame : Serves D m.disk m := .refl h
  cases a with
  | lookup directory name => exact found_rule hsame fun y _ => .lookup h y name
  | create => exact found_rule hsame fun y hy => .create h (huses y (hone hy)) nofun
  | mkdir => exact found_rule hsame fun y hy => .create h (huses y (hone hy)) fun _ => hsound y hy
  | unlink directory name fill removal =>
    exact found_rule hsame fun y hy => .unlink h (huses y (hone hy)) horphan name fill removal
  | rmdir directory name openDir readable removeDir =>
    obtain rfl : readable = true := hsound
    exact found_rule hsame fun y hy => .rmdir h (huses y (hone hy)) name openDir removeDir
  | rename =>
    refine both_rule hsame fun y z hy hz => ?_
    simp only [rename]
    split_ifs with hbelow
    · exact hsame
    · exact .rename h hsound (huses y (mem_append_left _ (hone hy)))
        (huses z (mem_append_right _ (hone hz))) horphan hbelow
  | link source directory name fault =>
    refine both_rule hsame fun y z _ hz => ?_
    exact .link h y (huses z (mem_append_right _ (hone hz))) name fault
  | openFile => exact found_rule hsame fun y _ => .fileOpen h
  | write file =>
    simp only [step]
    cases m.object file with
    | none => exact hsame
    | some => exact .contents h _ m.disk.mode
  | truncate =>
    refine found_rule hsame fun y _ => ?_
    unfold ext4fsTruncate
    split_ifs
    · exact .contents h _ m.disk.mode
    · exact hsame
  | setattr inode mode fault =>
    refine found_rule hsame fun y _ => ?_
    cases fault with
    | some => exact hsame
    | none => exact .contents h m.disk.file _
  | release file fault =>
    simp only [step]
    cases m.object file with
    | none => exact hsame
    | some f =>
      have hr := Removes.putOpenInode (h.files m.table (m.files.erase f) m.nextId m.panic) horphan f.inode fault
      exact ⟨hr.inv, hr.frame⟩
  | put => exact ⟨h.subset fun y hy => mem_of_mem_filter hy, fun _ _ => rfl⟩

omit h in
theorem mounted_inv (hk : DiskOk k) : IdentityInv (mounted k) := by
  refine ⟨hk, fun y hy => ?_⟩
  rw [mem_singleton.mp hy]
  exact fun _ => ⟨rfl, rfl⟩

/-- The object is for the inode that its path leads to: its names are names in this inode, what is looked up in it
    is what an entry of this inode names, and the calls that find the inode by its number read and change it and
    no other. -/
structure StandsFor (m : Mount) (y : Node) : Prop where
  path : m.disk.resolve y.path = some y.number
  live : m.disk.live y.number = true
  generation : m.disk.generation y.number = y.generation
  names : m.disk.directory y.number = true → ∀ name, m.disk.parent (y.path ++ [name]) = some (y.number, name)
  lookup : ∀ name c, (ext4fsLookup m y name c).2 = .ok → ∃ e, find exact m.disk.entries y.number name = some e ∧
    (ext4fsLookup m y name c).1 = { m with
      nodes := ⟨m.nextId, y.path ++ [name], e.target, m.disk.generation e.target, false⟩ :: m.nodes
      nextId := m.nextId + 1 }
  getattr : ∀ fault attributes, ext4fsGetattr m y fault = .ok attributes → attributes =
    ⟨y.number, m.disk.kind y.number, m.disk.mode y.number, m.disk.links y.number, (m.disk.file y.number).size⟩
  truncate : ∀ change, (ext4fsTruncate m y change).1 = { m with disk := { m.disk with
      file := Function.update m.disk.file y.number ((ext4fsTruncate m y change).1.disk.file y.number) } } ∧
    ((ext4fsTruncate m y change).2 = .ok →
      (ext4fsTruncate m y change).1.disk.file y.number = change (m.disk.file y.number))
  setattr : ∀ mode fault, (ext4fsSetattr m y mode fault).1 = { m with disk := { m.disk with
      mode := Function.update m.disk.mode y.number ((ext4fsSetattr m y mode fault).1.disk.mode y.number) } } ∧
    ((ext4fsSetattr m y mode fault).2 = .ok → (ext4fsSetattr m y mode fault).1.disk.mode y.number = mode)

omit h in
/-- What is found below a path is found in the inode that the path leads to. -/
theorem resolve_concat_some (hpath : m.disk.resolve y.path = some x) (hi : m.disk.resolve (y.path ++ [n]) = some i) :
    ∃ e, find exact m.disk.entries x n = some e ∧ e.target = i := by
  unfold Disk.resolve at hpath hi
  rw [walk_append, hpath, bind_some, walk_singleton] at hi
  exact map_eq_some_iff.mp hi

omit h in
theorem truncate_number (y : Node) (change : Inode → Inode) :
    (ext4fsTruncate m y change).1 = { m with disk := { m.disk with
      file := Function.update m.disk.file y.number ((ext4fsTruncate m y change).1.disk.file y.number) } } ∧
    ((ext4fsTruncate m y change).2 = .ok →
      (ext4fsTruncate m y change).1.disk.file y.number = change (m.disk.file y.number)) := by
  unfold ext4fsTruncate Mount.store
  split_ifs
  · simp only [Function.update_self, implies_true, and_self]
  · rw [Function.update_eq_self]
    exact ⟨rfl, nofun⟩

omit h in
theorem setattr_number (y : Node) (mode : Nat) (fault : Option Errno) :
    (ext4fsSetattr m y mode fault).1 = { m with disk := { m.disk with
      mode := Function.update m.disk.mode y.number ((ext4fsSetattr m y mode fault).1.disk.mode y.number) } } ∧
    ((ext4fsSetattr m y mode fault).2 = .ok → (ext4fsSetattr m y mode fault).1.disk.mode y.number = mode) := by
  unfold ext4fsSetattr
  cases fault with
  | none =>
    simp only [Function.update_self, implies_true, and_self]
  | some =>
    simp only
    rw [Function.update_eq_self]
    exact ⟨rfl, nofun⟩

theorem IdentityInv.standsFor (hy : y ∈ m.nodes) (hremoved : y.removed = false) : StandsFor m y := by
  obtain ⟨hpath, hgeneration⟩ := h.nodes y hy hremoved
  refine ⟨hpath, h.disk.resolve_live hpath, hgeneration, fun hdir name => parent_append hpath hdir name,
    fun name c hok => ?_, fun fault attributes hget => ?_, truncate_number y, setattr_number y⟩
  · obtain ⟨i, hi, hresult⟩ := lookup_ok hok
    obtain ⟨e, hfind, rfl⟩ := resolve_concat_some hpath hi
    exact ⟨e, hfind, hresult⟩
  · unfold ext4fsGetattr ext4RawInodeFillByNumber at hget
    cases fault with
    | some => cases hget
    | none =>
      injection hget with hget
      exact hget.symm

end

theorem uses_mem {a : Event} (h : y ∈ a.uses m) : y ∈ m.nodes := by
  have hone : ∀ {id : Nat}, y ∈ (m.node id).toList → y ∈ m.nodes := fun hy => node_mem (mem_toList.mp hy)
  cases a with
  | lookup | create | mkdir | unlink | rmdir | openFile => exact hone h
  | rename | link => exact (mem_append.mp h).elim hone hone
  | write | truncate | setattr | release | put => cases h

def nameD : Name := letter 100 (by decide)

def nameE : Name := letter 101 (by decide)

/-- A call that does not fail. -/
def makeCall (name : Name) (number : Ino) : CreateCall :=
  ⟨name, 493, [number], none, none, none, none, ⟨true, none⟩, none, none⟩

/-- The directory `d` is made, removed and made again with the number that is free; a file that is made through the
    first inode comes into the second directory. -/
def staleDirectory : List Event :=
  [.mkdir 0 (makeCall nameD 16), .rmdir 0 nameD none true none, .mkdir 0 (makeCall nameD 16),
    .create 1 (makeCall nameA 17)]

/-- A file is made and removed and another one gets its number; truncating the first truncates the second. -/
def staleNumber : List Event :=
  [.create 0 (makeCall nameD 16), .unlink 0 nameD none ⟨none, none, none⟩, .create 0 (makeCall nameE 16),
    .truncate 1 fun _ => ⟨7, fun _ => none⟩]

end Caffeinix.Ext4
