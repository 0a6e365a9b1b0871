import Caffeinix.Ext4.Adapter
import Caffeinix.Ext4.DiskInvariant

/-!
# `Ext4.Rename` — when `ext4fs_rename` fails (`fs/lwext4/caffeinix.c`)

`ext4fs_rename` removes what the new name refers to before it calls `ext4_frename`. If this call fails, what the
new name referred to is lost. A directory in the way has to be empty, but a directory that can not be read to
its end seems to be empty, and is removed with all that is in it. Where neither happens a call that fails leaves
both names and the paths of all inodes as they were.
-/

namespace Caffeinix.Ext4

open List NameTree Disk

/-- The names refer to the same inodes, and the inodes have the same paths. -/
structure Untouched (m m' : Mount) (c : RenameCall) : Prop where
  old : m'.disk.resolve c.oldPath = m.disk.resolve c.oldPath
  new : m'.disk.resolve c.newPath = m.disk.resolve c.newPath
  paths : m'.nodes.map Node.path = m.nodes.map Node.path

/-- The new name refers to another inode than the old one, and the call gets as far as removing it. -/
structure Replaces (m : Mount) (c : RenameCall) (x number : Ino) : Prop where
  oldJoin : ext4fsJoin c.oldDirectory c.oldName = .ok c.oldPath
  newJoin : ext4fsJoin c.newDirectory c.newName = .ok c.newPath
  source : m.disk.resolve c.oldPath = some x
  destination : m.disk.resolve c.newPath = some number
  ne : x ≠ number
  fillOld : c.fillOld = none
  fillNew : c.fillNew = none
  noreplace : c.noreplace = false
  check : ext4fsRenameCheck m.disk c c.newPath x number = none
  tried : ∃ nodes, ext4fsRebasePaths c.oldPath c.newPath false m.nodes = .ok nodes

/-- The inode in the way can be removed. An open file with one name has to get a name in the orphan directory. -/
def Removable (m : Mount) (c : RenameCall) (number : Ino) : Prop :=
  if m.disk.directory number then c.removeDir = none
  else c.removal.remove = none ∧ ∀ t, ext4fsFindOpenInode m.table number = some t → t.count ≠ 0 →
    m.disk.links number = 1 → ∃ k, ext4Flink m.disk c.newPath (ext4fsOrphanPath number) c.removal.link = .ok k

/-- The inodes that `ext4_dir_rm` frees: those below the directory, as many as there are before a failure, and at
    last the directory. -/
def Disk.freed (k : Disk) (number : Ino) (fault : Option (Errno × Nat)) : List Ino :=
  match fault with
  | none => (k.below k.capacity number).map (fun r => r.2.target) ++ [number]
  | some (_, n) => ((k.below k.capacity number).take n).map fun r => r.2.target

/-- Where something is in the way and can be removed the renaming itself does not fail; and the old path does not
    come through what `ext4_dir_rm` frees of a directory in the way, which has entries if it could not be read. -/
def SafeRename (m : Mount) (c : RenameCall) : Prop :=
  ∀ x number, Replaces m c x number → (Removable m c number → c.rename = none) ∧
    (m.disk.directory number = true → ∀ i ∈ m.disk.freed number c.removeDir,
      i ∉ visits exact m.disk.entries root c.oldPath)

variable {m m' : Mount} {c : RenameCall} {k k' k₁ : Disk} {old new path : Path} {d x number : Ino}
  {e : Entry Name Ino} {error : VfsError}

theorem Untouched.refl : Untouched m m c := ⟨rfl, rfl, rfl⟩

theorem join_ok {directory : Path} {name : Name} (h : ext4fsJoin directory name = .ok path) :
    path = directory ++ [name] := by
  unfold ext4fsJoin at h
  split_ifs at h
  injection h with h
  exact h.symm

/-! ## Paths of inodes -/

/-- A path at or below the old one becomes one at or below the new one. -/
def rebased (old new path : Path) : Path := if old <+: path then new ++ path.drop old.length else path

theorem rebaseInodePath_apply {path' : Path} (h : ext4fsRebaseInodePath old new false path = .ok path') :
    ext4fsRebaseInodePath old new true path = .ok (rebased old new path) := by
  unfold ext4fsRebaseInodePath at h ⊢
  unfold rebased
  by_cases hbelow : old <+: path
  · rw [if_neg (not_not.mpr hbelow)] at h ⊢
    rw [if_pos hbelow]
    by_cases hlong : vfsPathMax ≤ strlen new + textLength (path.drop old.length)
    · rw [if_pos hlong] at h
      cases h
    · rw [if_neg hlong, if_neg (by decide)]
  · rw [if_pos hbelow, if_neg hbelow]

/-- What has been tried can be done. -/
theorem rebasePaths_apply {nodes nodes' tried : List Node} (h : ext4fsRebasePaths old new false nodes = .ok tried)
    (hpaths : nodes'.map Node.path = nodes.map Node.path) :
    ext4fsRebasePaths old new true nodes' = .ok (nodes'.map fun y => { y with path := rebased old new y.path }) := by
  induction nodes generalizing nodes' tried with
  | nil =>
    rw [map_eq_nil_iff.mp hpaths]
    rfl
  | cons y nodes ih =>
    rcases nodes' with _ | _
    · cases hpaths
    injection hpaths with hpath hpaths
    unfold ext4fsRebasePaths at h ⊢
    split at h
    · cases h
    rename_i hone
    split at h
    · cases h
    rename_i hrest
    rw [hpath, rebaseInodePath_apply hone, ih hrest hpaths]
    rw [map_cons, hpath]

theorem settle_paths : (m.settle k).nodes.map Node.path = m.nodes.map Node.path := by
  unfold Mount.settle
  rw [map_map]
  refine map_congr_left fun y _ => ?_
  show (if _ then { y with removed := true } else y).path = y.path
  split_ifs <;> rfl

/-! ## What is in the way -/

/-- The entry of a path has gone, and its directory is there. Paths that lead somewhere lead where they led. -/
structure Gone (k k' : Disk) (new : Path) : Prop where
  free : ∃ d n, k'.parent new = some (d, n) ∧ find exact k'.entries d n = none
  plain : ∀ d, k'.directory d = false → k'.entries d = []
  back : ∀ p y z, k.resolve p = some y → k'.resolve p = some z → z = y

theorem Gone.resolve (h : Gone k k' new) : k'.resolve new = none := by
  obtain ⟨d, n, hparent, hfree⟩ := h.free
  obtain ⟨hnew, hresolve, -⟩ := parent_some hparent
  unfold Disk.resolve at hresolve ⊢
  rw [hnew, walk_append, hresolve, Option.bind_some, walk_singleton, hfree]
  rfl

/-- A renaming to the path succeeds if the old path leads where it led. -/
theorem Gone.frename (h : Gone k k' new) (hold : k.resolve old = some x) (hpath : old ≠ []) :
    (∃ k₁, ext4Frename k' old new none = .ok k₁) ↔ k'.resolve old = some x := by
  obtain ⟨d, n, hparent, hfree⟩ := h.free
  unfold ext4Frename
  rw [hparent]
  constructor
  · rintro ⟨k₁, hk₁⟩
    cases hlocate : k'.locate old with
    | none =>
      rw [hlocate] at hk₁
      cases hk₁
    | some r =>
      have hresolve := (locate_resolve hlocate).1
      rw [hresolve, h.back old x _ hold hresolve]
  · intro hresolve
    obtain ⟨od, e, hlocate, -⟩ := locate_of_resolve h.plain hresolve hpath
    rw [hlocate]
    simp only
    rw [hfree]
    exact ⟨_, rfl⟩

/-- Entries have gone, and that of the path is one of them. -/
theorem gone_remove (hk : DiskOk k) (hlocate : k.locate new = some (d, e))
    (hsub : ∀ c, (k'.entries c).Sublist (k.entries c)) (hnot : e ∉ k'.entries d) (hkind : k'.kind = k.kind)
    (hway : k'.resolve new.dropLast = some d) : Gone k k' new := by
  obtain ⟨hnew, -, hdir, hmem, -⟩ := locate_some hlocate
  have hdirectory : k'.directory = k.directory := by
    unfold directory
    rw [hkind]
  refine ⟨⟨d, e.name, ?_, ?_⟩, fun c hc => ?_, fun p y z hy hz => ?_⟩
  · rw [hnew]
    exact parent_append hway (by rw [hdirectory]; exact hdir) _
  · unfold find
    rw [List.find?_eq_none]
    intro a ha hname
    rw [(hk.names d).inj ((hsub d).subset ha) hmem (exact_iff.mp hname)] at ha
    exact hnot ha
  · rw [hdirectory] at hc
    have hnil := hsub c
    rw [hk.plain c hc] at hnil
    exact sublist_nil.mp hnil
  · have hz' : k.resolve p = some z := walk_of_subset hk.unique (fun c => (hsub c).subset) hz
    rw [hy] at hz'
    injection hz' with hz'
    exact hz'.symm

/-- The entry of an inode without entries goes: the paths to other inodes lead where they led. -/
theorem resolve_remove (hempty : k.entries e.target = []) (hentries : k'.entries = remove k.entries d e)
    (hpath : k.resolve path = some x) (hne : e.target ≠ x) : k'.resolve path = some x := by
  unfold Disk.resolve
  rw [hentries, (walk_remove (not_visited hpath hempty hne)).1]
  exact hpath

/-- The entry of a file goes. -/
theorem gone_unlink (hk : DiskOk k) (hlocate : k.locate new = some (d, e)) (hfile : k.directory e.target = false) :
    Gone k (k.unlink d e) new := by
  obtain ⟨-, hresolve, hdir, -⟩ := locate_some hlocate
  refine gone_remove hk hlocate (fun c => ?_) ?_ unlink_kind ?_
  · rw [unlink_entries]
    exact remove_sublist
  · rw [unlink_entries, remove_self, (hk.names d).mem_erase]
    exact fun h => h.1 rfl
  refine resolve_remove (hk.plain _ hfile) unlink_entries hresolve ?_
  rintro rfl
  rw [hdir] at hfile
  cases hfile

/-- The orphan name that was made for nothing goes again, or stays; paths that led somewhere lead there. -/
theorem undo_resolve {n : Name} (hparent : k.parent path = some (d, n)) (hfree : find exact k.entries d n = none)
    (file : Ino → Inode) (fault : Option RemoveFault) {p : Path} {y : Ino} (hp : k.resolve p = some y) :
    (ext4Fremove { k.link d n x with file := file } path fault).1.resolve p = some y := by
  have hadd : ({ k.link d n x with file := file } : Disk).resolve p = some y := walk_add hp
  rcases hremove : ext4Fremove { k.link d n x with file := file } path fault with ⟨k', result⟩
  cases result with
  | some =>
    obtain ⟨file', rfl⟩ := fremove_error hremove
    exact hadd
  | none =>
    rcases fremove_none hremove with rfl | ⟨d', e, hlocate, -, rfl⟩
    · exact hadd
    -- what is removed is the entry that was added
    obtain ⟨hpath, hresolve, hdir⟩ := parent_some hparent
    have hparent' : ({ k.link d n x with file := file } : Disk).parent path = some (d, n) := by
      rw [hpath]
      exact parent_append (k := { k.link d n x with file := file }) (walk_add hresolve) hdir n
    have hfind : find exact ({ k.link d n x with file := file } : Disk).entries d n = some ⟨n, x⟩ :=
      find_add_self hfree (exact_iff.mpr rfl)
    rw [locate_of_find hparent' hfind] at hlocate
    injection hlocate with hlocate
    injection hlocate with hd he
    have hnot : (⟨n, x⟩ : Entry Name Ino) ∉ k.entries d := fun hn =>
      absurd (exact_iff.mpr rfl) (Bool.eq_false_iff.mp (find_none hfree hn))
    unfold resolve
    rw [unlink_entries, ← hd, ← he]
    show walk exact (remove (add k.entries d ⟨n, x⟩) d ⟨n, x⟩) root p = some y
    rw [remove_add hnot]
    exact hp

/-- What is in the way has gone, or the path leads to it still. -/
inductive Removed (m : Mount) (new : Path) (P : Disk → Prop) : Mount × Option VfsError → Prop where
  | done {m' : Mount} (hgone : Gone m.disk m'.disk new) (hpaths : m'.nodes.map Node.path = m.nodes.map Node.path)
      (hdisk : P m'.disk) : Removed m new P (m', none)
  | failed {m' : Mount} {error : VfsError} (hnew : m'.disk.resolve new = m.disk.resolve new)
      (hpaths : m'.nodes.map Node.path = m.nodes.map Node.path) (hdisk : P m'.disk) : Removed m new P (m', some error)

theorem Removed.mono {P Q : Disk → Prop} {r : Mount × Option VfsError} (h : Removed m new P r)
    (hsub : ∀ k, P k → Q k) : Removed m new Q r := by
  cases h with
  | done hgone hpaths hdisk => exact .done hgone hpaths (hsub _ hdisk)
  | failed hnew hpaths hdisk => exact .failed hnew hpaths (hsub _ hdisk)

/-! ### Files -/

section
variable (hk : DiskOk m.disk) (hnew : m.disk.resolve new = some number) (hne : new ≠ [])
  (hfile : m.disk.directory number = false) (hold : m.disk.resolve old = some x) (hother : number ≠ x)
include hk hnew hne hfile hold hother

theorem removePlain_removed {fault : Option RemoveFault} :
    Removed m new (fun k => k.resolve old = some x) (m.removePlain new fault) := by
  unfold Mount.removePlain
  rcases hremove : ext4Fremove m.disk new fault with ⟨k, result⟩
  cases result with
  | none =>
    obtain ⟨d, e, hlocate, rfl, rfl⟩ := fremove_file hk.toTreeOk hremove hnew hfile hne
    exact .done (gone_unlink hk hlocate hfile) settle_paths
      (resolve_remove (hk.plain _ hfile) unlink_entries hold hother)
  | some =>
    obtain ⟨file, rfl⟩ := fremove_error hremove
    exact .failed rfl rfl hold

theorem removeOrphan_removed {r : Removal} :
    Removed m new (fun k => k.resolve old = some x) (m.removeOrphan new number r) := by
  unfold Mount.removeOrphan
  split
  · exact .failed rfl rfl hold
  rename_i k hlink
  have hk' := hk.flink hlink
  obtain ⟨i, d, n, -, -, hparent, hfree, rfl⟩ := flink_ok hlink
  simp only
  rcases hremove : ext4Fremove (m.disk.link d n i) new r.remove with ⟨k, result⟩
  cases result with
  | none =>
    obtain ⟨c, e, hlocate, rfl, rfl⟩ := fremove_file hk'.toTreeOk hremove (walk_add hnew) hfile hne
    have hgone := gone_unlink hk' hlocate hfile
    exact .done ⟨hgone.free, hgone.plain, fun p y z hy => hgone.back p y z (walk_add hy)⟩ settle_paths
      (resolve_remove (hk'.plain _ hfile) unlink_entries (walk_add hold) hother)
  | some =>
    obtain ⟨file, rfl⟩ := fremove_error hremove
    exact .failed ((undo_resolve hparent hfree file r.undo hnew).trans hnew.symm) settle_paths
      (undo_resolve hparent hfree file r.undo hold)

theorem removeLocked_removed {links : Nat} {r : Removal} :
    Removed m new (fun k => k.resolve old = some x) (ext4fsRemoveLocked m new number links r) := by
  unfold ext4fsRemoveLocked
  cases ext4fsFindOpenInode m.table number with
  | none => exact removePlain_removed hk hnew hne hfile hold hother
  | some =>
    simp only
    split_ifs with hopen
    · exact removePlain_removed hk hnew hne hfile hold hother
    · exact removeOrphan_removed hk hnew hne hfile hold hother

end

/-- `ext4_fremove` of a file fails for a reason of its own, or not at all. -/
theorem fremove_none_iff {fault : Option RemoveFault} (hk : TreeOk k) (hpath : k.resolve path = some x)
    (hne : path ≠ []) (hfile : k.directory x = false) : (ext4Fremove k path fault).2 = none ↔ fault = none := by
  obtain ⟨d, e, hlocate, rfl⟩ := locate_of_resolve hk.plain hpath hne
  unfold ext4Fremove
  rw [if_neg hne, hlocate]
  simp only
  rw [if_neg (Bool.eq_false_iff.mp hfile)]
  cases fault with
  | none => exact ⟨fun _ => rfl, fun _ => rfl⟩
  | some => exact ⟨nofun, nofun⟩

theorem removePlain_none {fault : Option RemoveFault} :
    (m.removePlain path fault).2 = none ↔ (ext4Fremove m.disk path fault).2 = none := by
  unfold Mount.removePlain
  rcases ext4Fremove m.disk path fault with ⟨k, _ | r⟩
  · exact ⟨fun _ => rfl, fun _ => rfl⟩
  · exact ⟨nofun, nofun⟩

theorem removeLocked_none {r : Removal} {links : Nat} (hk : TreeOk m.disk) (hnew : m.disk.resolve new = some number)
    (hne : new ≠ []) (hfile : m.disk.directory number = false) :
    (ext4fsRemoveLocked m new number links r).2 = none ↔
      r.remove = none ∧ ∀ t, ext4fsFindOpenInode m.table number = some t → t.count ≠ 0 → links = 1 →
        ∃ k, ext4Flink m.disk new (ext4fsOrphanPath number) r.link = .ok k := by
  have hplain : (m.removePlain new r.remove).2 = none ↔ r.remove = none :=
    removePlain_none.trans (fremove_none_iff hk hnew hne hfile)
  unfold ext4fsRemoveLocked
  cases ext4fsFindOpenInode m.table number with
  | none => exact hplain.trans ⟨fun h => ⟨h, nofun⟩, And.left⟩
  | some t =>
    simp only
    split_ifs with hopen
    · refine hplain.trans ⟨fun h => ⟨h, ?_⟩, And.left⟩
      rintro _ ⟨rfl⟩ hcount hlinks
      exact absurd hlinks (hopen.resolve_left hcount)
    · rw [not_or, not_not] at hopen
      unfold Mount.removeOrphan
      cases hlink : ext4Flink m.disk new (ext4fsOrphanPath number) r.link with
      | error =>
        refine ⟨nofun, fun h => ?_⟩
        obtain ⟨k, hk⟩ := h.2 t rfl hopen.1 hopen.2
        cases hk
      | ok k =>
        have hremove : (ext4Fremove k new r.remove).2 = none ↔ r.remove = none := by
          obtain ⟨i, d, n, -, -, hparent, hfree, rfl⟩ := flink_ok hlink
          exact fremove_none_iff (hk.link (parent_some hparent).2.2 hfree i) (walk_add hnew) hne hfile
        simp only
        rcases hresult : ext4Fremove k new r.remove with ⟨k', _ | e⟩ <;> rw [hresult] at hremove
        · exact ⟨fun _ => ⟨hremove.mp rfl, fun _ _ _ _ => ⟨k, rfl⟩⟩, fun _ => rfl⟩
        · exact ⟨nofun, fun h => absurd (hremove.mpr h.1) nofun⟩

/-! ### Directories -/

/-- What is below a directory has an entry, and a path from it. -/
theorem below_path (hk : TreeOk k) {depth : Nat} {r : Ino × Entry Name Ino} (hr : r ∈ k.below depth d) :
    r.2 ∈ k.entries r.1 ∧ ∃ q, q ≠ [] ∧ walk exact k.entries d q = some r.2.target := by
  induction depth generalizing d with
  | zero => cases hr
  | succ depth ih =>
    obtain ⟨e, he, hr⟩ := mem_flatMap.mp hr
    have hfind : find exact k.entries d e.name = some e :=
      ((hk.names d).find?_eq_some fun _ => exact_iff).mpr ⟨he, rfl⟩
    rcases mem_append.mp hr with hr | hr
    · obtain ⟨hmem, q, -, hq⟩ := ih hr
      exact ⟨hmem, e.name :: q, cons_ne_nil _ _, (walk_cons hfind).trans hq⟩
    · rw [mem_singleton.mp hr]
      exact ⟨he, [e.name], cons_ne_nil _ _, walk_cons hfind⟩

/-- Where a walk comes through is a directory, if it ends in one. -/
theorem visits_directory (hk : TreeOk k) (hpath : k.resolve path = some d) (hdir : k.directory d = true)
    (hx : x ∈ visits exact k.entries root path) : k.directory x = true := by
  by_cases hxd : x = d
  · rw [hxd]
    exact hdir
  · by_contra hfile
    exact visits_entries hpath hx hxd (hk.plain _ (Bool.eq_false_iff.mpr hfile))

/-- The way to a directory does not come through what has a longer path. -/
theorem not_visited_of_longer (hk : DiskOk k) {q : Path} (hq : k.resolve q = some x)
    (hpath : k.resolve path = some d) (hdir : k.directory d = true) (hlength : path.length < q.length) :
    x ∉ visits exact k.entries root path := by
  intro hvisited
  obtain ⟨p, hp, hwalk⟩ := visits_part hvisited
  have hsame : p = q := hk.path_unique (visits_directory hk.toTreeOk hpath hdir hvisited) hwalk hq
  have hle := hp.length_le
  rw [hsame] at hle
  omega

/-- `ext4_dir_rm`, entry by entry. -/
def Disk.erased (k : Disk) (l : List (Ino × Entry Name Ino)) : Disk := l.foldl (fun k r => k.erase r.1 r.2) k

/-- Entries go one after the other, and the paths that do not come through their targets lead where they led. -/
theorem erased_spec (l : List (Ino × Entry Name Ino)) (k : Disk) :
    (∀ c, ((k.erased l).entries c).Sublist (k.entries c)) ∧ (k.erased l).kind = k.kind ∧
    ∀ p, (∀ r ∈ l, r.2.target ∉ visits exact k.entries root p) → (k.erased l).resolve p = k.resolve p := by
  induction l generalizing k with
  | nil => exact ⟨fun c => .refl _, rfl, fun _ _ => rfl⟩
  | cons r l ih =>
    obtain ⟨hsub, hkind, hpaths⟩ := ih (k.erase r.1 r.2)
    refine ⟨fun c => (hsub c).trans remove_sublist, hkind, fun p hp => ?_⟩
    obtain ⟨hwalk, hvisits⟩ := walk_remove (d := r.1) (hp r mem_cons_self)
    refine (hpaths p fun r' hr' => ?_).trans hwalk
    rw [show visits exact (k.erase r.1 r.2).entries root p = visits exact k.entries root p from hvisits]
    exact hp r' (mem_cons_of_mem _ hr')

theorem erased_not_mem (hk : ∀ d, Keyed Entry.name (k.entries d)) {l : List (Ino × Entry Name Ino)}
    {r : Ino × Entry Name Ino} (hr : r ∈ l) : r.2 ∉ (k.erased l).entries r.1 := by
  induction l generalizing k with
  | nil => cases hr
  | cons r' l ih =>
    rcases mem_cons.mp hr with rfl | hr
    · intro hmem
      have hleft := ((erased_spec l (k.erase r.1 r.2)).1 r.1).subset hmem
      rw [show (k.erase r.1 r.2).entries r.1 = (k.entries r.1).erase r.2 from remove_self,
        (hk r.1).mem_erase] at hleft
      exact hleft.1 rfl
    · exact ih (k := k.erase r'.1 r'.2) (fun d => (hk d).sublist remove_sublist) hr

/-- A path to a directory leads there still exactly if it does not come through an inode that goes. -/
theorem erased_resolve (hk : DiskOk k) {l : List (Ino × Entry Name Ino)} (hl : ∀ r ∈ l, r.2 ∈ k.entries r.1)
    (hpath : k.resolve path = some x) (hdir : k.directory x = true) :
    (k.erased l).resolve path = some x ↔ ∀ r ∈ l, r.2.target ∉ visits exact k.entries root path := by
  obtain ⟨hsub, -, hpaths⟩ := erased_spec l k
  refine ⟨fun hleft r hr hvisited => ?_, fun hnot => (hpaths path hnot).trans hpath⟩
  have hsub' := fun c => (hsub c).subset
  rw [visits_of_subset hk.unique hsub' hleft] at hvisited
  obtain ⟨c, a, ha, htarget⟩ := visits_mem hvisited
  -- the entry by which the path comes to the inode is its only one, and it has gone
  have hdirectory : k.directory r.2.target = true := by
    rw [← visits_of_subset hk.unique hsub' hleft] at hvisited
    exact visits_directory hk.toTreeOk hpath hdir hvisited
  obtain ⟨hc, ha'⟩ := hk.single r.1 r.2 (hl r hr) c a (hsub' c ha) htarget.symm hdirectory
  rw [← hc, ← ha'] at ha
  exact erased_not_mem hk.names hr ha

/-- `ext4_dir_rm` of a directory that is there. -/
theorem dirRm_spec (fault : Option (Errno × Nat)) (hk : DiskOk k) (hnew : k.resolve new = some number)
    (hne : new ≠ []) (hdir : k.directory number = true) :
    ∃ l, (ext4DirRm k new fault).1 = k.erased l ∧ l.map (fun r => r.2.target) = k.freed number fault ∧
      (∀ r ∈ l, r.2 ∈ k.entries r.1) ∧ ((ext4DirRm k new fault).2 = none ↔ fault = none) ∧
      (fault = none → Gone k (k.erased l) new) ∧ (fault ≠ none → (k.erased l).resolve new = k.resolve new) := by
  obtain ⟨d, e, hlocate, rfl⟩ := locate_of_resolve hk.plain hnew hne
  obtain ⟨hpath, hresolve, hd, hmem, -⟩ := locate_some hlocate
  -- what is below the directory is not on the way to it
  have hbelow : ∀ r ∈ k.below k.capacity e.target,
      r.2 ∈ k.entries r.1 ∧ ∃ q, k.resolve q = some r.2.target ∧ new.length < q.length := by
    intro r hr
    obtain ⟨hmem, q, hq, hwalk⟩ := below_path hk.toTreeOk hr
    refine ⟨hmem, new ++ q, ?_, ?_⟩
    · unfold Disk.resolve at hnew ⊢
      rw [walk_append, hnew]
      exact hwalk
    · rw [length_append]
      exact Nat.lt_add_of_pos_right (length_pos_iff.mpr hq)
  unfold ext4DirRm freed
  rw [hlocate]
  simp only
  rw [hdir]
  cases fault with
  | none =>
    refine ⟨k.below k.capacity e.target ++ [(d, e)], ?_, ?_, fun r hr => ?_, ⟨fun _ => rfl, fun _ => rfl⟩, fun _ => ?_,
      fun h => absurd rfl h⟩
    · unfold erased
      rw [foldl_append]
      rfl
    · rw [map_append]
      rfl
    · rcases mem_append.mp hr with hr | hr
      · exact (hbelow r hr).1
      · rw [mem_singleton.mp hr]
        exact hmem
    · obtain ⟨hsub, hkind, hpaths⟩ := erased_spec (k.below k.capacity e.target ++ [(d, e)]) k
      have hshort : new.dropLast.length < new.length := by
        rw [length_dropLast]
        exact Nat.sub_lt (length_pos_iff.mpr hne) Nat.one_pos
      refine gone_remove hk hlocate hsub (erased_not_mem hk.names (mem_append_right _ mem_cons_self)) hkind
        ((hpaths _ fun r hr => ?_).trans hresolve)
      rcases mem_append.mp hr with hr | hr
      · obtain ⟨-, q, hq, hlength⟩ := hbelow r hr
        exact not_visited_of_longer hk hq hresolve hd (hshort.trans hlength)
      · rw [mem_singleton.mp hr]
        exact not_visited_of_longer hk hnew hresolve hd hshort
  | some f =>
    refine ⟨(k.below k.capacity e.target).take f.2, rfl, rfl, fun r hr => (hbelow r (mem_of_mem_take hr)).1,
      ⟨nofun, nofun⟩, nofun, fun _ => (erased_spec _ k).2.2 new fun r hr => ?_⟩
    obtain ⟨-, q, hq, hlength⟩ := hbelow r (mem_of_mem_take hr)
    exact not_visited_of_longer hk hq hnew hdir hlength

/-- `ext4_dir_rm` of an empty directory removes the name, or nothing. -/
theorem dirRm_empty {fault : Option (Errno × Nat)} (hlocate : k.locate path = some (d, e))
    (hdir : k.directory e.target = true) (hempty : k.entries e.target = []) :
    ext4DirRm k path fault = (k.erase d e, none) ∨ ∃ r, ext4DirRm k path fault = (k, some r) := by
  have hbelow : ∀ depth, k.below depth e.target = [] := by
    intro depth
    cases depth with
    | zero => rfl
    | succ =>
      unfold below
      rw [hempty]
      rfl
  unfold ext4DirRm
  rw [hlocate]
  simp only
  rw [hdir, hbelow]
  cases fault with
  | none => exact .inl rfl
  | some f =>
    refine .inr ⟨f.1, ?_⟩
    rw [if_neg (by decide)]
    simp only
    rw [take_nil]
    rfl

theorem renameCheck_directory (h : ext4fsRenameCheck k c new x number = none) (hdir : k.directory number = true) :
    k.directory x = true := by
  unfold ext4fsRenameCheck at h
  rw [hdir] at h
  by_contra hx
  rw [if_neg (fun h => h.2 rfl), if_pos ⟨hx, rfl⟩] at h
  cases h

/-- What is in the way goes or stays, and the old path leads where it led unless it comes through a directory that
    goes. -/
theorem renameRemove_removed (hk : DiskOk m.disk) (h : Replaces m c x number) :
    Removed m c.newPath (fun k => k.resolve c.oldPath = some x ↔ (m.disk.directory number = true →
        ∀ i ∈ m.disk.freed number c.removeDir, i ∉ visits exact m.disk.entries root c.oldPath))
      (ext4fsRenameRemove m c c.newPath number) ∧
    ((ext4fsRenameRemove m c c.newPath number).2 = none ↔ Removable m c number) := by
  unfold ext4fsRenameRemove Removable
  split_ifs with hdir
  · obtain ⟨l, hdisk, hfreed, hl, hnone, hdone, hfailed⟩ :=
      dirRm_spec c.removeDir hk h.destination (concat_ne_nil _ _) hdir
    have hold := erased_resolve hk hl h.source (renameCheck_directory h.check hdir)
    rw [← forall_mem_map (f := fun r : Ino × Entry Name Ino => r.2.target)
      (P := fun i => i ∉ visits exact m.disk.entries root c.oldPath), hfreed] at hold
    have hold' := hold.trans ⟨fun h _ => h, fun h => h hdir⟩
    rcases hrm : ext4DirRm m.disk c.newPath c.removeDir with ⟨k, _ | r⟩ <;> rw [hrm] at hdisk hnone <;>
      obtain rfl : k = _ := hdisk
    · have hremove := hnone.mp rfl
      exact ⟨.done (hdone hremove) settle_paths hold', ⟨fun _ => hremove, fun _ => rfl⟩⟩
    · have hremove : c.removeDir ≠ none := fun hremove => nomatch hnone.mpr hremove
      exact ⟨.failed (hfailed hremove) settle_paths hold', ⟨nofun, fun h => absurd h hremove⟩⟩
  · have hfile := Bool.eq_false_iff.mpr hdir
    refine ⟨(removeLocked_removed hk h.destination (concat_ne_nil _ _) hfile h.source h.ne.symm).mono fun k hold =>
      ⟨fun _ hdir' => absurd hdir' hdir, fun _ => hold⟩, ?_⟩
    exact removeLocked_none hk.toTreeOk h.destination (concat_ne_nil _ _) hfile

/-! ## The call -/

/-- A directory that can be read and is said to be empty has no entries. -/
theorem renameCheck_empty {oldNumber : Ino} (h : ext4fsRenameCheck k c new oldNumber number = none)
    (hnew : k.resolve new = some number) (hreadable : c.readable = true) (hdir : k.directory number = true) :
    k.entries number = [] := by
  unfold ext4fsRenameCheck at h
  split_ifs at h with h₁ h₂
  unfold ext4fsDirectoryEmpty at h
  rw [hnew] at h
  split at h
  · cases h
  simp only at h
  rw [hdir, hreadable, if_neg (by decide)] at h
  split_ifs at h with hentries
  rw [Bool.true_and, Bool.not_eq_true', Bool.not_eq_false, List.isEmpty_iff] at hentries
  exact hentries

/-- The end of a call whose new path is free. -/
theorem finish_untouched (hgone : Gone m.disk m'.disk c.newPath)
    (hpaths : m'.nodes.map Node.path = m.nodes.map Node.path) (h : Replaces m c x number) :
    (∀ error, (ext4fsRenameFinish m' c.oldPath c.newPath c.rename).2 = .error error →
      Untouched m (ext4fsRenameFinish m' c.oldPath c.newPath c.rename).1 c) ↔
    c.rename = none ∧ m'.disk.resolve c.oldPath = some x := by
  obtain ⟨nodes, htry⟩ := h.tried
  have hok : (∃ k, ext4Frename m'.disk c.oldPath c.newPath c.rename = .ok k) ↔
      c.rename = none ∧ m'.disk.resolve c.oldPath = some x := by
    cases c.rename with
    | none => exact (hgone.frename h.source (concat_ne_nil _ _)).trans ⟨fun hold => ⟨rfl, hold⟩, And.right⟩
    | some => exact ⟨nofun, nofun⟩
  rw [← hok]
  unfold ext4fsRenameFinish
  cases ext4Frename m'.disk c.oldPath c.newPath c.rename with
  | error r =>
    -- the new name is lost
    refine ⟨fun huntouched => ?_, nofun⟩
    have hnew := (huntouched _ rfl).new
    rw [hgone.resolve, h.destination] at hnew
    cases hnew
  | ok k =>
    simp only
    rw [rebasePaths_apply htry hpaths]
    exact ⟨fun _ => ⟨k, rfl⟩, nofun⟩

/-- A call that gets as far as removing what is in the way. -/
theorem replaces_untouched (hk : DiskOk m.disk) (h : Replaces m c x number) :
    (∀ error, (ext4fsRename m c).2 = .error error → Untouched m (ext4fsRename m c).1 c) ↔
    (Removable m c number → c.rename = none) ∧ (m.disk.directory number = true →
      ∀ i ∈ m.disk.freed number c.removeDir, i ∉ visits exact m.disk.entries root c.oldPath) := by
  obtain ⟨hremoved, hnone⟩ := renameRemove_removed hk h
  obtain ⟨nodes, htry⟩ := h.tried
  have hcall : ext4fsRename m c = ext4fsRenameReplace m c c.oldPath c.newPath (some number) := by
    unfold ext4fsRename ext4RawInodeFill
    rw [h.oldJoin, h.newJoin, h.fillOld, h.fillNew]
    simp only
    rw [h.source, h.destination]
    simp only
    rw [h.noreplace, if_neg (by decide), if_neg h.ne, h.check]
  rw [hcall]
  unfold ext4fsRenameReplace
  rw [htry]
  simp only
  generalize ext4fsRenameRemove m c c.newPath number = result at hremoved hnone
  cases hremoved with
  | done hgone hpaths hold =>
    have hremovable : Removable m c number := hnone.mp rfl
    rw [← hold]
    refine (finish_untouched hgone hpaths h).trans (and_congr_left' ⟨fun hrename _ => hrename, fun hrename => ?_⟩)
    exact hrename hremovable
  | failed hnew hpaths hold =>
    have hremovable : ¬ Removable m c number := fun hremovable => nomatch hnone.mpr hremovable
    rw [← hold]
    constructor
    · intro huntouched
      exact ⟨fun h => absurd h hremovable, (huntouched _ rfl).old.trans h.source⟩
    · rintro ⟨-, hold⟩ _ _
      exact ⟨hold.trans h.source.symm, hnew, hpaths⟩

/-- Any other call that fails changes nothing. -/
theorem rename_error (hnot : ∀ x number, ¬ Replaces m c x number) (h : (ext4fsRename m c).2 = .error error) :
    (ext4fsRename m c).1 = m := by
  -- the middle of the call, with nothing in the way or what can not be removed
  have hreplace : ∀ destination, (∀ nodes number, destination = some number →
      ext4fsRebasePaths c.oldPath c.newPath false m.nodes ≠ .ok nodes) →
      (ext4fsRenameReplace m c c.oldPath c.newPath destination).2 = .error error →
      (ext4fsRenameReplace m c c.oldPath c.newPath destination).1 = m := by
    intro destination hdestination h
    unfold ext4fsRenameReplace at h ⊢
    split
    · rfl
    rename_i nodes htry
    cases destination with
    | some number => exact absurd htry (hdestination nodes number rfl)
    | none =>
      rw [htry] at h
      unfold ext4fsRenameFinish at h ⊢
      cases hrename : ext4Frename m.disk c.oldPath c.newPath c.rename with
      | error => rfl
      | ok =>
        rw [hrename, rebasePaths_apply htry rfl] at h
        cases h
  unfold ext4fsRename at h ⊢
  rcases hjoin : ext4fsJoin c.oldDirectory c.oldName with _ | old
  · rfl
  rcases hjoin' : ext4fsJoin c.newDirectory c.newName with _ | new
  · rfl
  obtain rfl : old = c.oldPath := join_ok hjoin
  obtain rfl : new = c.newPath := join_ok hjoin'
  rw [hjoin, hjoin'] at h
  simp only at h ⊢
  split
  · rfl
  rename_i x hfill
  rw [hfill] at h
  cases hfill' : ext4RawInodeFill m.disk c.newPath c.fillNew with
  | error r =>
    rw [hfill'] at h
    cases r with
    | noent => exact hreplace none nofun h
    | _ => rfl
  | ok number =>
    rw [hfill'] at h
    simp only at h ⊢
    by_cases hnoreplace : c.noreplace = true
    · rw [if_pos hnoreplace]
    rw [if_neg hnoreplace] at h ⊢
    by_cases hsame : x = number
    · rw [if_pos hsame]
    rw [if_neg hsame] at h ⊢
    split
    · rfl
    rename_i hcheck
    rw [hcheck] at h
    refine hreplace (some number) (fun nodes _ _ htry => ?_) h
    exact hnot x number ⟨hjoin, hjoin', rawInodeFill_ok hfill, rawInodeFill_ok hfill', hsame, rawInodeFill_fault hfill,
      rawInodeFill_fault hfill', Bool.eq_false_iff.mpr hnoreplace, hcheck, nodes, htry⟩

/-- The name of one letter. -/
def letter (c : UInt8) (h : c ≠ 0 ∧ c ≠ 47) : Name where
  bytes := [c]
  plain := ⟨fun hc => h.1 (mem_singleton.mp hc).symm, fun hc => h.2 (mem_singleton.mp hc).symm⟩

def nameA : Name := letter 97 (by decide)

def nameB : Name := letter 98 (by decide)

def nameC : Name := letter 99 (by decide)

/-- The files `a` and `b` and the directory `c` with the directory `a` in it, beside the orphan directory. -/
def smallDisk : Disk where
  entries := fun d =>
    if d = root then [⟨ext4fsOrphanName, 11⟩, ⟨nameA, 12⟩, ⟨nameB, 13⟩, ⟨nameC, 14⟩]
    else if d = 14 then [⟨nameA, 15⟩]
    else []
  kind := fun i => if i = 12 ∨ i = 13 then .file else .directory
  links := fun _ => 1
  live := fun i => i = root ∨ 11 ≤ i ∧ i ≤ 15
  file := fun _ => ⟨0, fun _ => none⟩
  mode := fun _ => 0
  generation := fun _ => 0
  capacity := 20

theorem smallDisk_tree : TreeOk smallDisk := by
  refine ⟨fun d => ?_, fun d hd => ?_⟩
  · unfold smallDisk Keyed
    simp only
    split_ifs
    · decide
    · decide
    · exact nodup_nil
  · have hfile : d = 12 ∨ d = 13 := by
      by_contra hd'
      unfold directory smallDisk at hd
      simp only at hd
      rw [if_neg hd'] at hd
      cases hd
    rcases hfile with rfl | rfl <;> rfl

theorem smallDisk_ok : DiskOk smallDisk := by
  have hmem : ∀ d, ∀ a ∈ smallDisk.entries d, d = root ∧ a ∈ smallDisk.entries root ∨ d = 14 ∧ a = ⟨nameA, 15⟩ := by
    intro d a ha
    by_cases hroot : d = root
    · rw [hroot] at ha
      exact .inl ⟨hroot, ha⟩
    by_cases h14 : d = 14
    · rw [h14] at ha
      exact .inr ⟨h14, mem_singleton.mp ha⟩
    · rw [show smallDisk.entries d = [] from (if_neg hroot).trans (if_neg h14)] at ha
      cases ha
  have htargets : ∀ a ∈ smallDisk.entries root, ∀ b ∈ smallDisk.entries root, a.target = b.target → a = b := by
    decide
  have hne15 : ∀ a ∈ smallDisk.entries root, a.target ≠ 15 := by decide
  have hweighs : ∀ i, (i = 12 ∨ i = 13) → Weighs (smallDisk.naming i) 1 := by
    intro i hi
    have hzero : Weighs (fun _ : Ino => 0) 0 := weighs_none fun _ => rfl
    refine hzero.change (a := root) (fun d hd => ?_) (by rcases hi with rfl | rfl <;> rfl)
    refine countP_eq_zero.mpr fun a ha => ?_
    rcases hmem d a ha with ⟨hroot, -⟩ | ⟨-, rfl⟩
    · exact absurd hroot hd
    · rcases hi with rfl | rfl <;> decide
  refine ⟨smallDisk_tree, fun d hd => ?_, fun d a ha => ?_, fun c a ha d b hb htarget _ => ?_, rfl, rfl,
    fun d a ha => ?_, fun i _ hfile => ?_⟩
  · rw [eq_nil_iff_forall_not_mem]
    intro a ha
    rcases hmem d a ha with ⟨rfl, -⟩ | ⟨rfl, -⟩ <;> exact absurd hd (by decide)
  · rcases hmem d a ha with ⟨-, ha⟩ | ⟨-, rfl⟩
    · exact (by decide : ∀ a ∈ smallDisk.entries root, smallDisk.live a.target = true) a ha
    · decide
  · rcases hmem c a ha with ⟨rfl, ha'⟩ | ⟨rfl, rfl⟩ <;> rcases hmem d b hb with ⟨rfl, hb'⟩ | ⟨rfl, rfl⟩
    · exact ⟨rfl, htargets a ha' b hb' htarget⟩
    · exact absurd htarget (hne15 a ha')
    · exact absurd htarget.symm (hne15 b hb')
    · exact ⟨rfl, rfl⟩
  · rcases hmem d a ha with ⟨-, ha⟩ | ⟨-, rfl⟩
    · exact (by decide : ∀ a ∈ smallDisk.entries root, a.target ≠ root) a ha
    · decide
  · refine hweighs i ?_
    by_contra hi
    unfold Disk.directory smallDisk at hfile
    simp only at hfile
    rw [if_neg hi] at hfile
    cases hfile

/-- The volume is mounted and nothing is open. -/
def smallMount : Mount := ⟨smallDisk, List.replicate 100 ⟨0, 0, false⟩, [⟨0, [], root, 0, false⟩], [], 1, false⟩

/-- A call in the root. -/
def renameInRoot (oldName newName : Name) (rename : Option Errno) : RenameCall :=
  ⟨[], oldName, [], newName, false, none, none, none, true, none, ⟨none, none, none⟩, rename⟩

/-- The directory `c/a` in place of `c`, which can not be read. -/
def renameUp : RenameCall :=
  ⟨[nameC], nameA, [], nameC, false, none, none, none, false, none, ⟨none, none, none⟩, none⟩

end Caffeinix.Ext4
